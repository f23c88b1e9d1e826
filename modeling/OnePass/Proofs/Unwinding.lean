import OnePass.Proofs.Unbroken

/-!
# The pass unwinds what it opens

While a method is read, its scope is open, it is the current method, and the loops around it
are out of reach.  All of this is taken back however the reading ends, so that at the end
of the pass only the entry method is left, and no name that was declared inside a method can
be resolved.

What is declared inside a method is told by the calls to the scopes: a declaration is made
inside a method if the scope of one is open when it is made.

## Main definitions

* `Scopes.afterAll` — the scopes after a list of calls.
* `Scopes.declaredInside` — what the calls declare inside methods.
* `State.Unwound` — all that was opened in between has been left again.
* `Production.Unwinds` — a production leaves what it opens, however it ends.

## Main results

* `Scopes.resolve?_ne_of_declaredInside` — **what was declared inside a method is gone once
  all methods are left**.
* `Production.unwinds_grammar` — every production leaves what it opens.
* `parse_unwinds` — **at the end of a pass only the entry method is left**.
-/

namespace OnePass

/-! ### Runs of calls -/

namespace Scopes

/-- The scopes after a call, whatever it answers.  A call that fails may have changed nothing. -/
def after (s : Scopes) (c : Call) : Scopes :=
  match c.run s with
  | .ok _ s' => s'
  | .error _ s' => s'

/-- The scopes after a list of calls, the first one made first. -/
def afterAll (s : Scopes) (calls : List Call) : Scopes := calls.foldl after s

/-- Whether a call declares a name in the innermost scope.  Predefined names go to the outermost
one. -/
def Call.declares : Call → Bool
  | .declareMethod _ _ => true
  | .declareParameter _ _ _ => true
  | .declareLocal _ _ _ => true
  | _ => false

/-- What a call declares, in whichever scope. -/
def Call.entity? : Call → Option Entity
  | .declareGlobal entity => some entity
  | .declareMethod name returnType => some (.method name returnType [] none)
  | .declareParameter name ty ordinal => some (.parameter name ty ordinal none)
  | .declareLocal name ty slot => some (.local name ty slot)
  | _ => none

/-- The numbers of the methods, parameters and locals that the calls declare while the scope of
a method is open. -/
def declaredInside (s : Scopes) : List Call → List EntityId
  | [] => []
  | c :: calls =>
    (if c.declares && !s.nested.isEmpty then [s.entities.size] else []) ++
      (s.after c).declaredInside calls

theorem after_exit (s : Scopes) : s.after .exit = { s with nested := s.nested.tail } := by
  obtain ⟨entities, outermost, program, nested⟩ := s
  cases nested <;> rfl

/-- What a call can do: enter a scope, leave one, declare something in the innermost or in the
outermost one, or change entities that are there. -/
theorem after_cases (s : Scopes) (c : Call) :
    (c = .enter ∧ s.after c = s.enter) ∨
    (c = .exit ∧ s.after c = { s with nested := s.nested.tail }) ∨
    (c.Stays ∧ ∃ entity, c.entity? = some entity ∧ c.declares = true ∧
      s.after c = (s.declare entity).2) ∨
    c.Stays ∧ c.declares = false ∧
      ((∃ entity, c = .declareGlobal entity ∧ s.after c = (s.declareGlobal entity).2) ∨
      c.entity? = none ∧
        ∃ entities, entities.size = s.entities.size ∧ s.after c = { s with entities }) := by
  cases c with
  | enter => exact .inl ⟨rfl, rfl⟩
  | exit => exact .inr (.inl ⟨rfl, s.after_exit⟩)
  | declareGlobal entity => exact .inr (.inr (.inr ⟨trivial, rfl, .inl ⟨entity, rfl, rfl⟩⟩))
  | declareMethod name returnType =>
    exact .inr (.inr (.inl ⟨trivial, .method name returnType [] none, rfl, rfl, rfl⟩))
  | declareParameter name ty ordinal =>
    exact .inr (.inr (.inl ⟨trivial, .parameter name ty ordinal none, rfl, rfl, rfl⟩))
  | declareLocal name ty slot =>
    exact .inr (.inr (.inl ⟨trivial, .local name ty slot, rfl, rfl, rfl⟩))
  | attachMethod id method parameters =>
    refine .inr (.inr (.inr ⟨trivial, rfl, .inr ⟨rfl, ?_⟩⟩))
    -- a number that stands for something else is refused, and nothing changes
    rcases hentity : s.entities[id]? with _ | (_ | _ | _ | _)
    case some.method name returnType _ _ =>
      refine ⟨s.entities.setIfInBounds id (.method name returnType parameters (some method)),
        by simp, ?_⟩
      simp only [after, Call.run, Scopes.attachMethod, hentity]
    all_goals exact ⟨s.entities, rfl, by simp only [after, Call.run, Scopes.attachMethod, hentity]⟩
  | attachParameter id slot =>
    refine .inr (.inr (.inr ⟨trivial, rfl, .inr ⟨rfl, ?_⟩⟩))
    rcases hentity : s.entities[id]? with _ | (_ | _ | _ | _)
    case some.parameter name ty ordinal _ =>
      refine ⟨s.entities.setIfInBounds id (.parameter name ty ordinal (some slot)), by simp, ?_⟩
      simp only [after, Call.run, Scopes.attachParameter, hentity]
    all_goals exact ⟨s.entities, rfl,
      by simp only [after, Call.run, Scopes.attachParameter, hentity]⟩

/-- Only entering and leaving a scope changes how many are open.  So all other calls keep the
depth. -/
theorem length_nested_after {c : Call} (hc : c.Stays) (s : Scopes) :
    (s.after c).nested.length = s.nested.length := by
  rcases s.after_cases c with ⟨rfl, -⟩ | ⟨rfl, -⟩ | ⟨-, entity, -, -, h⟩ |
    ⟨-, -, ⟨entity, -, h⟩ | ⟨-, _, -, h⟩⟩
  · exact hc.elim
  · exact hc.elim
  · rw [h, length_nested_declare]
  · rw [h]
    rfl
  · rw [h]

/-! ### What is out of reach -/

/-- Every name of a scope has kept its number, or has a new one.  No name gets a number that another
one had before. -/
def Renewed (old new : Scope) (size size' : Nat) : Prop :=
  ∀ (x : String) (id : EntityId), new[x]? = some id → old[x]? = some id ∨ size ≤ id ∧ id < size'

/-- Names outside of all methods change by getting new numbers only.  This is what every call keeps
to. -/
structure Extends (s s' : Scopes) : Prop where
  size : s.entities.size ≤ s'.entities.size
  program : Renewed s.program s'.program s.entities.size s'.entities.size
  outermost : Renewed s.outermost s'.outermost s.entities.size s'.entities.size

theorem renewed_refl (scope : Scope) (size size' : Nat) : Renewed scope scope size size' :=
  fun _ _ hx => .inl hx

theorem renewed_insert (scope : Scope) (name : String) (size : Nat) :
    Renewed scope (scope.insert name size) size (size + 1) := by
  intro x id hx
  rw [Std.TreeMap.getElem?_insert] at hx
  split at hx
  · cases hx
    exact .inr ⟨Nat.le_refl _, Nat.lt_succ_self _⟩
  · exact .inl hx

theorem extends_declare (s : Scopes) (entity : Entity) : s.Extends (s.declare entity).2 := by
  obtain ⟨entities, outermost, program, nested⟩ := s
  have hsize : (entities.push entity).size = entities.size + 1 := Array.size_push entity
  -- outside of all methods the name goes to the scope of the program, and inside to neither scope
  cases nested with
  | nil =>
    refine ⟨hsize ▸ Nat.le_succ _, ?_, renewed_refl _ _ _⟩
    exact hsize ▸ renewed_insert program entity.name entities.size
  | cons scope nested => exact ⟨hsize ▸ Nat.le_succ _, renewed_refl _ _ _, renewed_refl _ _ _⟩

theorem extends_after (s : Scopes) (c : Call) : s.Extends (s.after c) := by
  rcases s.after_cases c with ⟨-, h⟩ | ⟨-, h⟩ | ⟨-, entity, -, -, h⟩ |
    ⟨-, -, ⟨entity, -, h⟩ | ⟨-, _, hsize, h⟩⟩
  · rw [h]
    exact ⟨Nat.le_refl _, renewed_refl _ _ _, renewed_refl _ _ _⟩
  · rw [h]
    exact ⟨Nat.le_refl _, renewed_refl _ _ _, renewed_refl _ _ _⟩
  · rw [h]
    exact s.extends_declare entity
  · have hpush : (s.entities.push entity).size = s.entities.size + 1 := Array.size_push entity
    rw [h]
    refine ⟨hpush ▸ Nat.le_succ _, renewed_refl _ _ _, ?_⟩
    exact hpush ▸ renewed_insert s.outermost entity.name s.entities.size
  · rw [h]
    exact ⟨Nat.le_of_eq hsize.symm, renewed_refl _ _ _, renewed_refl _ _ _⟩

/-- Every name outside of all methods stands for an entity.  So no such name has a number that is
not given out yet. -/
structure Numbered (s : Scopes) : Prop where
  program : s.Known s.program
  outermost : s.Known s.outermost

/-- A number that has been given out, and to no name outside of all methods.  Outside of them it
cannot be found. -/
structure Hidden (s : Scopes) (id : EntityId) : Prop where
  used : id < s.entities.size
  program : ∀ x : String, s.program[x]? ≠ some id
  outermost : ∀ x : String, s.outermost[x]? ≠ some id

variable {s s' : Scopes} {id : EntityId}

theorem Renewed.known {old new : Scope} (h : Renewed old new s.entities.size s'.entities.size)
    (hsize : s.entities.size ≤ s'.entities.size) (hold : s.Known old) : s'.Known new := by
  intro x id hx
  rcases h x id hx with hx | ⟨-, hlt⟩
  · exact Nat.lt_of_lt_of_le (hold x id hx) hsize
  · exact hlt

theorem Renewed.ne {old new : Scope} {size size' : Nat} (h : Renewed old new size size')
    (hused : id < size) (hold : ∀ x : String, old[x]? ≠ some id) (x : String) :
    new[x]? ≠ some id := by
  intro hx
  rcases h x id hx with hx | ⟨hle, -⟩
  · exact hold x hx
  · exact absurd hused (Nat.not_lt.mpr hle)

theorem Numbered.after (h : s.Numbered) (c : Call) : (s.after c).Numbered :=
  have hc := s.extends_after c
  ⟨hc.program.known hc.size h.program, hc.outermost.known hc.size h.outermost⟩

/-- What is hidden stays hidden, because names get new numbers only. -/
theorem Hidden.after (h : s.Hidden id) (c : Call) : (s.after c).Hidden id :=
  have hc := s.extends_after c
  ⟨Nat.lt_of_lt_of_le h.used hc.size, hc.program.ne h.used h.program,
    hc.outermost.ne h.used h.outermost⟩

theorem Hidden.afterAll (h : s.Hidden id) (calls : List Call) : (s.afterAll calls).Hidden id := by
  induction calls generalizing s with
  | nil => exact h
  | cons c calls ih => exact ih (h.after c)

/-- What is declared inside a method is hidden: its name goes to the scope of the method, and its
number is new. -/
theorem Numbered.hidden_declare (h : s.Numbered) (hs : s.nested ≠ []) (entity : Entity) :
    (s.declare entity).2.Hidden s.entities.size := by
  obtain ⟨entities, outermost, program, nested⟩ := s
  cases nested with
  | nil => exact absurd rfl hs
  | cons scope nested =>
    refine ⟨?_, fun x hx => ?_, fun x hx => ?_⟩
    · exact Nat.lt_of_lt_of_eq (Nat.lt_succ_self _) (Array.size_push entity).symm
    · exact Nat.lt_irrefl _ (h.program x _ hx)
    · exact Nat.lt_irrefl _ (h.outermost x _ hx)

theorem hidden_of_declaredInside {calls : List Call} (h : s.Numbered)
    (hid : id ∈ s.declaredInside calls) : (s.afterAll calls).Hidden id := by
  induction calls generalizing s with
  | nil => cases hid
  | cons c calls ih =>
    rcases List.mem_append.mp hid with hid | hid
    · -- the first call declares it: from there on it stays hidden
      split at hid
      · next hc =>
        obtain rfl : id = s.entities.size := by simpa using hid
        simp only [Bool.and_eq_true, Bool.not_eq_true', List.isEmpty_eq_false_iff] at hc
        refine Hidden.afterAll ?_ calls
        rcases s.after_cases c with ⟨rfl, -⟩ | ⟨rfl, -⟩ | ⟨-, entity, -, -, hafter⟩ |
          ⟨-, hdeclares, -⟩
        · cases hc.1
        · cases hc.1
        · rw [hafter]
          exact h.hidden_declare hc.2 entity
        · rw [hdeclares] at hc
          cases hc.1
      · cases hid
    · exact ih (h.after c) hid

/-- **What was declared inside a method is gone once all methods are left**, whatever else has been
declared since then. -/
theorem resolve?_ne_of_declaredInside {calls : List Call} (h : s.Numbered)
    (hleft : (s.afterAll calls).nested = []) (hid : id ∈ s.declaredInside calls) (x : String) :
    (s.afterAll calls).resolve? x ≠ some id := by
  have hhidden := hidden_of_declaredInside h hid
  intro hx
  -- a name that can be resolved is one of the program or predefined
  obtain ⟨scope, hscope, hx⟩ := List.exists_of_findSome?_eq_some hx
  rw [chain, hleft] at hscope
  simp only [List.nil_append, List.mem_cons, List.not_mem_nil, or_false] at hscope
  rcases hscope with rfl | rfl
  · exact hhidden.program x hx
  · exact hhidden.outermost x hx

end Scopes

/-! ### Leaving what was opened -/

/-- The loops, the methods and the number of open scopes are again as they were; the scopes have
changed by calls. -/
structure State.Unwound (s s' : State) : Prop where
  loops : s'.loops = s.loops
  methods : s'.methods = s.methods
  nested : s'.scopes.nested.length = s.scopes.nested.length
  calls : ∃ calls, s.scopes.afterAll calls = s'.scopes

namespace State.Unwound

theorem of_same {s s' : State} (h : s.Same s') : s.Unwound s' :=
  ⟨h.loops, h.methods, by rw [h.scopes], [], h.scopes.symm⟩

theorem refl (s : State) : s.Unwound s := of_same (.refl s)

theorem trans {s s₁ s₂ : State} (h : s.Unwound s₁) (h' : s₁.Unwound s₂) : s.Unwound s₂ := by
  obtain ⟨calls, hcalls⟩ := h.calls
  obtain ⟨calls', hcalls'⟩ := h'.calls
  refine ⟨h'.loops.trans h.loops, h'.methods.trans h.methods, h'.nested.trans h.nested,
    calls ++ calls', ?_⟩
  rw [← hcalls', ← hcalls]
  exact List.foldl_append

/-- A call that keeps the open scopes is in order by itself. -/
theorem after (s : State) {c : Scopes.Call} (hc : c.Stays) (log : Array Event) :
    s.Unwound { s with scopes := s.scopes.after c, log } :=
  ⟨rfl, rfl, Scopes.length_nested_after hc s.scopes, [c], rfl⟩

/-- Leaving a loop takes away the loop that was entered. -/
theorem inLoop {s s' : State} {loop : Loop}
    (h : State.Unwound { s with loops := loop :: s.loops } s') :
    s.Unwound { s' with loops := s'.loops.tail } :=
  ⟨congrArg List.tail h.loops, h.methods, h.nested, h.calls⟩

/-- Leaving a method takes away the method that was entered. -/
theorem inMethod {s s' : State} {id : MethodId}
    (h : State.Unwound { s with methods := id :: s.methods } s') :
    s.Unwound { s' with methods := s'.methods.tail } :=
  ⟨h.loops, congrArg List.tail h.methods, h.nested, h.calls⟩

/-- Leaving the scope of a method, inside which no loops are within reach. -/
theorem inScope {s s' : State} {log : Array Event}
    (h : State.Unwound { s with scopes := s.scopes.enter, loops := [], log } s')
    (log' : Array Event) :
    s.Unwound { s' with loops := s.loops, scopes := s'.scopes.after .exit, log := log' } := by
  obtain ⟨calls, hcalls⟩ := h.calls
  have hnested : s'.scopes.nested.length = s.scopes.nested.length + 1 := h.nested
  refine ⟨rfl, h.methods, ?_, .enter :: calls ++ [.exit], ?_⟩
  · show (s'.scopes.after .exit).nested.length = _
    rw [Scopes.after_exit, List.length_tail, hnested]
    rfl
  · show s.scopes.enter.afterAll (calls ++ [.exit]) = s'.scopes.after .exit
    rw [← hcalls]
    exact List.foldl_append

end State.Unwound

namespace Production

variable {α β : Type}

/-- A call to the scopes, whatever it answers.  If it fails, the pass is halted, with the scopes as
they are then. -/
theorem ends_scope_after {c : Scopes.Call} {s : State} {Q : c.Answer → State → Prop}
    {E : Halt → State → Prop} (hQ : ∀ x log, Q x { s with scopes := s.scopes.after c, log })
    (hE : ∀ f log, E (.broken f) { s with scopes := s.scopes.after c, log }) :
    Ends (scope c) s Q E := by
  unfold Ends
  rw [scope_apply]
  simp only [Scopes.Call.perform, bind, EStateM.bind, Logged.silently]
  cases hrun : c.run s.scopes with
  | ok x scopes =>
    have hafter : s.scopes.after c = scopes := by rw [Scopes.after, hrun]
    exact hafter ▸ hQ x _
  | error f scopes =>
    have hafter : s.scopes.after c = scopes := by rw [Scopes.after, hrun]
    exact hafter ▸ hE f _

/-- A production that leaves what it opens, however it ends.  So a halt inside of it leaves nothing
open either. -/
def Unwinds (p : Production α) : Prop :=
  ∀ s, Ends p s (fun _ s' => s.Unwound s') fun _ s' => s.Unwound s'

theorem unwinds_of_same {p : Production α}
    (hp : ∀ s, Ends p s (fun _ s' => s.Same s') fun _ s' => s.Same s') : Unwinds p :=
  fun s => (hp s).mono (fun _ _ h => .of_same h) fun _ _ h => .of_same h

theorem unwinds_bind {p : Production α} {f : α → Production β} (hp : Unwinds p)
    (hf : ∀ a, Unwinds (f a)) : Unwinds (p >>= f) :=
  fun s => (hp s).bind fun a s₁ h₁ =>
    (hf a s₁).mono (fun _ _ h => h₁.trans h) fun _ _ h => h₁.trans h

theorem unwinds_assemble (c : Assembler.Call) : Unwinds (assemble c) :=
  fun _ => ends_assemble (fun _ _ _ => ⟨rfl, rfl, rfl, [], rfl⟩) fun _ _ _ =>
    ⟨rfl, rfl, rfl, [], rfl⟩

theorem unwinds_closed : Closed fun _ p => Unwinds p where
  pure _ s := .refl s
  bind := unwinds_bind
  view _ s := .refl s
  accept? _ := unwinds_of_same fun s => ends_accept? (fun _ _ => .advance s) fun _ => .refl s
  accept _ := unwinds_of_same fun s => ends_accept (fun _ => .advance s) fun _ => .refl s
  error e := unwinds_of_same fun s => .errorAt s _ e
  emit _ := unwinds_assemble _
  returnType := unwinds_assemble _
  errorAt p e := unwinds_of_same fun s => .errorAt s p e

/-- The scope of a method is left, and the loops around the method are within reach again, also if
the reading was halted. -/
theorem unwinds_inScope {step : Production α} (hs : Unwinds step) : Unwinds (inScope step) := by
  intro s
  have hrun : Scopes.Call.enter.run s.scopes = .ok () s.scopes.enter := rfl
  obtain ⟨log, henter⟩ := scope_ok hrun
  -- leaving is the same behind both ways of ending
  have hleave (s₁ : State)
      (h₁ : State.Unwound { s with scopes := s.scopes.enter, loops := [], log } s₁) :
      Ends (do modify fun t => { t with loops := s.loops }; scope .exit) s₁
        (fun _ s₂ => s.Unwound s₂) fun _ s₂ => s.Unwound s₂ :=
    ends_bind.mpr (ends_modify.mpr
      (ends_scope_after (fun _ log' => h₁.inScope log') fun _ log' => h₁.inScope log'))
  refine ends_bind.mpr (ends_of_ok henter ?_)
  refine ends_bind.mpr (ends_view.mpr (ends_bind.mpr (ends_modify.mpr (Ends.ensuring ?_))))
  exact (hs _).mono (fun _ => hleave) fun _ => hleave

theorem unwinds_bracketed : Bracketed fun _ p => Unwinds p where
  toClosed := unwinds_closed
  assemble := unwinds_assemble
  stay _ hc s := ends_scope_after (fun _ _ => .after s hc _) fun _ _ => .after s hc _
  inLoop {_ _} hs _ _ := ends_bind.mpr (ends_modify.mpr (Ends.ensuring
    ((hs _).mono (fun _ _ h => h.inLoop) fun _ _ h => h.inLoop)))
  inMethod {_ _} hs _ _ := ends_bind.mpr (ends_modify.mpr (Ends.ensuring
    ((hs _).mono (fun _ _ h => h.inMethod) fun _ _ h => h.inMethod)))
  inScope := unwinds_inScope
  bugStatement := unwinds_closed.toSequential.bugStatement fun _ _ =>
    unwinds_of_same fun s => .report s _
  note _ := unwinds_of_same fun _ => ⟨rfl, rfl, rfl, rfl⟩
  broken _ s := .refl s
  settle := unwinds_of_same fun _ => ⟨rfl, rfl, rfl, rfl⟩
  skipUnexpected := unwinds_of_same fun s => .skipUnexpected s

/-- **Every production leaves what it opens**, however it ends. -/
theorem unwinds_grammar (options : Options) : Grammar options fun _ p => Unwinds p := by
  -- a stray statement opens nothing
  have hleave := unwinds_bracketed.branching.leaveOf fun _ s => .refl s
  exact unwinds_bracketed.grammar (fun _ => hleave _ _ _) fun _ => hleave _ _ _

end Production

open Production

/-! ### Whole passes -/

/-- A pass leaves all that it opened behind its beginning, where only the entry method is open. -/
theorem parse_unwound (options : Options) (source : String) : ∃ assembler log,
    (begunState source assembler log).Unwound (parse options source).state := by
  obtain ⟨assembler, log, -, hparse⟩ := parse_of_items options source
  obtain ⟨hok, herror⟩ := hparse ((unwinds_grammar options).items (lexemes source).length
    (lexemes source).length (begunState source assembler log))
  refine ⟨assembler, log, ?_⟩
  cases houtcome : (parse options source).outcome with
  | ok matched => exact hok matched houtcome
  | error halt => exact herror halt houtcome

/-- After a pass that was not ended early the entry method is the only open one.  A halt may come
between opening a method and ending it. -/
theorem opened_of_parse {options : Options} {source : String} {matched : Bool}
    (h : (parse options source).outcome = .ok matched) :
    (parse options source).state.assembler.opened = [0] := by
  obtain ⟨assembler, log, hshows, hparse⟩ := parse_of_items options source
  have hsteady : (begunState source assembler log).Steady _ 0 _ _ := begunState_steady hshows
  have hitems := (unbroken_grammar options (getLast?_sourceKinds source)).items
    (lexemes source).length (lexemes source).length hsteady
  obtain ⟨offsets, o, d, hsteady, -, -, hmethods, -⟩ := (hparse hitems).1 matched h
  obtain ⟨methods, hassembler, -⟩ := hsteady.shows
  rw [hassembler]
  exact hsteady.opened.trans hmethods

/-- The names that are there from the beginning stand for the predefined types, so all of them have
numbers. -/
theorem Scopes.numbered_initial : Scopes.initial.Numbered := by
  have hsound := Scopes.sound_initial.1
  exact ⟨hsound.known _ (by simp [Scopes.chain]), hsound.known _ (by simp [Scopes.chain])⟩

/-- **At the end of a pass only the entry method is left.**  Whatever the source and the options
are, and however the pass ends, all scopes but the scope of the program have been left, and so have
all loops and all methods but the entry method.  So no name stands for anything that was declared
inside a method: whichever calls the scopes came about by, what these declared while the scope of
a method was open is out of reach.  If the pass was not ended early, the assembler has no
other open method either. -/
theorem parse_unwinds (options : Options) (source : String) :
    (parse options source).state.scopes.depth = 1 ∧
    (parse options source).state.loops = [] ∧
    (parse options source).state.methods = [0] ∧
    (∃ calls, Scopes.initial.afterAll calls = (parse options source).state.scopes) ∧
    (∀ calls, Scopes.initial.afterAll calls = (parse options source).state.scopes →
      ∀ id ∈ Scopes.initial.declaredInside calls, ∀ name,
        (parse options source).state.scopes.resolve? name ≠ some id) ∧
    ∀ matched, (parse options source).outcome = .ok matched →
      (parse options source).state.assembler.opened = [0] := by
  obtain ⟨assembler, log, hunwound⟩ := parse_unwound options source
  have hbegun := State.Same.advance (.start (lexemes source))
  have hscopes : (begunState source assembler log).scopes = .initial := hbegun.scopes
  have hloops : (begunState source assembler log).loops = [] := hbegun.loops
  -- at the beginning there are the names of the program and the predefined ones, so no other scope
  have hinitial : Scopes.initial.nested = [] := by
    have hnames := congrArg List.length Scopes.sound_initial.2
    simpa [Scopes.names, Scopes.chain] using hnames
  have hnested : (parse options source).state.scopes.nested = [] := by
    have hlength := hunwound.nested
    rw [hscopes, hinitial] at hlength
    exact List.length_eq_zero_iff.mp hlength
  refine ⟨?_, hunwound.loops.trans hloops, hunwound.methods, hscopes ▸ hunwound.calls, ?_,
    fun _ => opened_of_parse⟩
  · rw [Scopes.depth, hnested]
    rfl
  · intro calls hcalls id hid name
    rw [← hcalls] at hnested ⊢
    exact Scopes.resolve?_ne_of_declaredInside Scopes.numbered_initial hnested hid name

end OnePass
