import OnePass.Proofs.Registry

/-!
# Variables in code

Code names variables by slots, and the assembler takes whatever slot it is given.  That
the slots in a program are those of variables, within reach of the method whose code
names them, comes from the scopes: the entities there know their slots, and a slot once
declared stays what it is.  This holds after every pass that comes to its end, errors or
not.

## Main definitions

* `LocalSlot.declared?`, `ParameterSlot.Declared` — what a slot stands for.
* `Method.InReach` — the code of a method names only variables within its reach, and takes
  a value into a local right after turning it into one of its type.
* `State.Slotted` — what holds of the program and the scopes during the pass.
* `Production.Slots` — a production that keeps it so.

## Main results

* `Method.InReach.add`, `Method.InReach.of_operations` — what an instruction adds.
* `Production.load_slots`, `Production.store_slots` — variables are loaded and stored within
  reach.
* `variables_in_reach` — **every slot in the code of a program is that of a variable within
  reach**.
-/

namespace OnePass

/-! ### Slots and what they stand for -/

section

variable {headings headings' : List Heading}

/-- The local variable a slot stands for. -/
def LocalSlot.declared? (headings : List Heading) (slot : LocalSlot) : Option Variable :=
  headings[slot.method]?.bind (·.locals[slot.index]?)

/-- The slot is that of a parameter. -/
def ParameterSlot.Declared (headings : List Heading) (slot : ParameterSlot) : Prop :=
  ∃ heading, headings[slot.method]? = some heading ∧ 1 ≤ slot.ordinal ∧
    slot.ordinal ≤ heading.parameters.length

/-- The methods have all they declared before, and perhaps more locals.  Locals are only ever added
behind the others, so a slot once given stays what it is. -/
def Grown (headings headings' : List Heading) : Prop :=
  ∀ (id : MethodId) (heading : Heading), headings[id]? = some heading →
    ∃ heading', headings'[id]? = some heading' ∧ heading.locals <+: heading'.locals ∧
      heading'.parameters.length = heading.parameters.length

namespace Grown

theorem refl (headings : List Heading) : Grown headings headings :=
  fun _ heading h => ⟨heading, h, List.prefix_refl _, rfl⟩

theorem trans {headings'' : List Heading} (h : Grown headings headings')
    (h' : Grown headings' headings'') : Grown headings headings'' := by
  intro id heading hid
  obtain ⟨heading', hid', hlocals, hparameters⟩ := h id heading hid
  obtain ⟨heading'', hid'', hlocals', hparameters'⟩ := h' id heading' hid'
  exact ⟨heading'', hid'', hlocals.trans hlocals', hparameters'.trans hparameters⟩

/-- One more method leaves the ones before it alone. -/
theorem append (headings more : List Heading) : Grown headings (headings ++ more) :=
  fun _ heading h => ⟨heading, getElem?_append_of_eq_some h more, List.prefix_refl _, rfl⟩

/-- A method that declares more, with all the others left alone. -/
theorem set {id : MethodId} {heading heading' : Heading} (hid : headings[id]? = some heading)
    (hlocals : heading.locals <+: heading'.locals)
    (hparameters : heading'.parameters.length = heading.parameters.length) :
    Grown headings (headings.set id heading') := by
  intro k other hk
  by_cases heq : id = k
  · subst heq
    obtain rfl := Option.some.inj (hid.symm.trans hk)
    exact ⟨heading', List.getElem?_set_self (List.getElem?_eq_some_iff.mp hid).1, hlocals,
      hparameters⟩
  · exact ⟨other, by rw [List.getElem?_set_ne heq, hk], List.prefix_refl _, rfl⟩

/-- A slot stands for the same local variable after more has been declared. -/
theorem declared? (h : Grown headings headings') {slot : LocalSlot} {v : Variable}
    (hv : slot.declared? headings = some v) : slot.declared? headings' = some v := by
  obtain ⟨heading, hid, hindex⟩ := Option.bind_eq_some_iff.mp hv
  obtain ⟨heading', hid', ⟨more, hlocals⟩, -⟩ := h _ _ hid
  refine Option.bind_eq_some_iff.mpr ⟨heading', hid', ?_⟩
  rw [← hlocals]
  exact getElem?_append_of_eq_some hindex more

/-- The slot of a parameter stays one after more has been declared. -/
theorem declared (h : Grown headings headings') {slot : ParameterSlot}
    (hslot : slot.Declared headings) : slot.Declared headings' := by
  obtain ⟨heading, hid, hpos, hle⟩ := hslot
  obtain ⟨heading', hid', -, hparameters⟩ := h _ _ hid
  exact ⟨heading', hid', hpos, hparameters ▸ hle⟩

end Grown

/-! ### Code -/

/-- The slot is that of a local of the method, or of the entry method, whose locals are those of the
whole program. -/
def LocalSlot.InReach (headings : List Heading) (id : MethodId) (slot : LocalSlot) : Prop :=
  (slot.method = id ∨ slot.method = 0) ∧ ∃ v, slot.declared? headings = some v

/-- The variable an operation names, if any, is one the method can use.  A parameter is named by its
ordinal alone, so it is one of the method's own. -/
def Operation.InReach (headings : List Heading) (id : MethodId) : Operation → Prop
  | .loadLocal slot => slot.InReach headings id
  | .storeLocal slot => slot.InReach headings id
  | .loadArg ordinal => ParameterSlot.Declared headings ⟨id, ordinal⟩
  | _ => True

/-- The code of a method names only variables within its reach, and a value that is stored in
a local has just been turned into one of its type. -/
structure Method.InReach (headings : List Heading) (id : MethodId) (m : Method) : Prop where
  operations : ∀ (k : Nat) (operation : Operation), m.code[k]? = some (.plain operation) →
    operation.InReach headings id
  converted : ∀ (k : Nat) (slot : LocalSlot), m.code[k]? = some (.plain (.storeLocal slot)) →
    ∃ j v source, k = j + 1 ∧ slot.declared? headings = some v ∧
      m.code[j]? = some (.plain (.convert v.type source))

/-- What is within reach stays within reach. -/
theorem Operation.InReach.grow {id : MethodId} {operation : Operation}
    (h : operation.InReach headings id) (hgrown : Grown headings headings') :
    operation.InReach headings' id := by
  have hslot {slot : LocalSlot} (h : slot.InReach headings id) : slot.InReach headings' id :=
    ⟨h.1, h.2.imp fun _ hv => hgrown.declared? hv⟩
  cases operation with
  | loadLocal slot => exact hslot h
  | storeLocal slot => exact hslot h
  | loadArg ordinal => exact hgrown.declared h
  | _ => trivial

/-- The operations that have to do with no variable are within reach of any method. -/
theorem Operation.Simple.inReach {operation : Operation} (h : operation.Simple)
    (headings : List Heading) (id : MethodId) : operation.InReach headings id := by
  cases operation <;> trivial

namespace Method.InReach

variable {id : MethodId} {m m' : Method}

/-- The code of a method stays right when more is declared. -/
theorem grow (h : m.InReach headings id) (hgrown : Grown headings headings') :
    m.InReach headings' id where
  operations k operation hk := (h.operations k operation hk).grow hgrown
  converted k slot hk := by
    obtain ⟨j, v, source, hj, hv, hconvert⟩ := h.converted k slot hk
    exact ⟨j, v, source, hj, hgrown.declared? hv, hconvert⟩

/-- Only the operations count, and where they stand; the branches between them may change. -/
theorem of_operations (h : m.InReach headings id) (hcode : ∀ (k : Nat) (operation : Operation),
    m'.code[k]? = some (.plain operation) ↔ m.code[k]? = some (.plain operation)) :
    m'.InReach headings id where
  operations k operation hk := h.operations k operation ((hcode k operation).mp hk)
  converted k slot hk := by
    obtain ⟨j, v, source, hj, hv, hconvert⟩ := h.converted k slot ((hcode k _).mp hk)
    exact ⟨j, v, source, hj, hv, (hcode j _).mpr hconvert⟩

/-- One more operation, within reach.  If it is a store, the last instruction has to be the
conversion of its value. -/
theorem add (h : m.InReach headings id) {operation : Operation}
    (hop : operation.InReach headings id)
    (hstore : ∀ slot, operation = .storeLocal slot → ∃ v source,
      slot.declared? headings = some v ∧ m.code.back? = some (.plain (.convert v.type source))) :
    Method.InReach headings id { m with code := m.code.push (.plain operation) } where
  operations k other hk := by
    rw [Array.getElem?_push] at hk
    split at hk
    · cases hk
      exact hop
    · exact h.operations k other hk
  converted k slot hk := by
    rw [Array.getElem?_push] at hk
    split at hk
    · next hlast =>
      cases hk
      obtain ⟨v, source, hv, hback⟩ := hstore slot rfl
      have hpos : 0 < m.code.size := by
        rw [Array.back?_eq_getElem?] at hback
        have := (Array.getElem?_eq_some_iff.mp hback).1
        omega
      refine ⟨m.code.size - 1, v, source, by omega, hv, ?_⟩
      rw [Array.back?_eq_getElem?] at hback
      rw [Array.getElem?_push, if_neg (by omega)]
      exact hback
    · -- a store further up has its conversion before it still
      obtain ⟨j, v, source, hj, hv, hconvert⟩ := h.converted k slot hk
      have hlt := (Array.getElem?_eq_some_iff.mp hconvert).1
      refine ⟨j, v, source, hj, hv, ?_⟩
      rw [Array.getElem?_push, if_neg (by omega)]
      exact hconvert

/-- One more branch changes nothing about the operations. -/
theorem branch (h : m.InReach headings id) {i : Instruction} {t : Target} (hi : i.target? = some t)
    (labels : Array LabelState) :
    Method.InReach headings id { m with code := m.code.push i, labels } := by
  refine h.of_operations fun k operation => ?_
  rw [Array.getElem?_push]
  split
  · next hk =>
    refine ⟨fun heq => ?_, fun heq => ?_⟩
    · cases heq
      cases hi
    · rw [hk] at heq
      simp at heq
  · rfl

end Method.InReach

/-- Sending branches elsewhere leaves the operations alone, as only branches can be sent. -/
theorem Method.retarget_operation {m m' : Method} {offset : Nat} {branches : List Nat} {x : Unit}
    (h : retarget offset branches m = .ok x m') (k : Nat) (operation : Operation) :
    m'.code[k]? = some (.plain operation) ↔ m.code[k]? = some (.plain operation) := by
  induction branches generalizing m with
  | nil =>
    cases h
    rfl
  | cons i rest ih =>
    unfold retarget at h
    split at h
    · next instruction hi =>
      obtain ⟨old, hold, hretarget⟩ := Option.bind_eq_some_iff.mp hi
      rw [ih h, Array.getElem?_setIfInBounds]
      split
      · next heq =>
        -- what is sent elsewhere is a branch before and after
        subst heq
        rw [hold]
        cases old <;> cases hretarget <;> simp
      · rfl
    · cases h

end

/-! ### Requests -/

namespace Assembler

variable {a a' : Assembler}

/-- The code of every method names only variables within its reach. -/
def InReach (a : Assembler) : Prop :=
  ∀ (id : MethodId) (m : Method), a.methods[id]? = some m → m.InReach a.headings id

/-- A method was changed.  It may have declared more, which the other methods see as well. -/
theorem InReach.put (h : a.InReach) {id : MethodId} {m' : Method}
    (hgrown : Grown a.headings (a.put id m').headings) (hm' : m'.InReach a.headings id) :
    (a.put id m').InReach := by
  intro k n hn
  rw [methods_put, Array.getElem?_setIfInBounds] at hn
  split at hn
  · next heq =>
    split at hn
    · cases hn
      exact heq ▸ hm'.grow hgrown
    · cases hn
  · exact (h k n hn).grow hgrown

/-- The code of a method was changed, and nothing has been declared. -/
theorem InReach.put_code (h : a.InReach) {id : MethodId} {m m' : Method}
    (hm : a.methods[id]? = some m) (hheading : m'.heading = m.heading)
    (hm' : m'.InReach a.headings id) : (a.put id m').InReach := by
  refine h.put ?_ hm'
  rw [headings_put, hheading, set_of_getElem? (getElem?_headings hm)]
  exact .refl _

/-- A step on the current method that leaves its operations alone. -/
theorem InReach.onCurrent {α : Type} {x : α} {step : MethodId → Coding α} (h : a.InReach)
    (hstep : ∀ id m x m', step id m = .ok x m' → m'.heading = m.heading ∧
      ∀ headings, m.InReach headings id → m'.InReach headings id)
    (hrun : Assembler.onCurrent step a = .ok x a') : a'.InReach ∧ a'.opened = a.opened := by
  obtain ⟨id, m, m', -, hm, hok, rfl⟩ := onCurrent_ok hrun
  obtain ⟨hheading, hkeeps⟩ := hstep id m x m' hok
  exact ⟨h.put_code hm hheading (hkeeps _ (h id m hm)), rfl⟩

/-- A branch is recorded as pending or not, and is no operation either way. -/
theorem InReach.jump (h : a.InReach) {branch : Target → Instruction}
    (hbranch : ∀ t, (branch t).target? = some t) {label : Label} {x : Unit}
    (hrun : Assembler.jump branch label a = .ok x a') : a'.InReach ∧ a'.opened = a.opened := by
  refine h.onCurrent (fun id m x m' hstep => ?_) hrun
  split at hstep
  · refine ⟨Method.heading_of_jump hstep, fun headings hm => ?_⟩
    unfold Method.jump at hstep
    split at hstep <;> cases hstep
    · exact hm.branch (hbranch _) _
    · exact hm.branch (hbranch _) _
  · cases hstep

/-- The last instruction of the innermost open method, which is the one that a store looks back
at. -/
def last? (a : Assembler) : Option Instruction :=
  (a.opened.head?.bind (a.methods[·]?)).bind (·.code.back?)

namespace Call

/-- Requests that have to do with labels add no operation: a branch is none, and binding a label
sends branches elsewhere. -/
theorem inReach_of_labels {c : Call} (hc : c.Labels) {x : c.Answer} (hrun : c.run a = .ok x a')
    (h : a.InReach) : a'.InReach ∧ a'.opened = a.opened := by
  cases c with
  | newLabel =>
    refine h.onCurrent (fun id m x m' hstep => ?_) hrun
    cases hstep
    exact ⟨rfl, fun _ hm => hm.of_operations fun _ _ => Iff.rfl⟩
  | bindLabel label =>
    refine h.onCurrent (fun id m x m' hstep => ?_) hrun
    split at hstep
    · refine ⟨Method.heading_of_bindLabel hstep, fun headings hm => ?_⟩
      obtain ⟨branches, _, hretarget⟩ := Method.retarget_of_bindLabel hstep
      exact hm.of_operations fun k operation => Method.retarget_operation hretarget k operation
    · cases hstep
  | branch label => exact h.jump (fun _ => rfl) hrun
  | branchIfFalse label => exact h.jump (fun _ => rfl) hrun
  | _ => exact hc.elim

/-- To ask for the return type changes nothing. -/
theorem inReach_of_returnType {ty : Ty} (hrun : Call.returnType.run a = .ok ty a') (h : a.InReach) :
    a'.InReach ∧ a'.opened = a.opened := by
  refine h.onCurrent (fun id m x m' hstep => ?_) hrun
  cases hstep
  exact ⟨rfl, fun _ hm => hm⟩

/-- An operation that names variables within reach; a store follows the conversion of its
value. -/
theorem inReach_of_emit {operation : Operation} {x : Unit}
    (hrun : (Call.emit operation).run a = .ok x a') (h : a.InReach)
    (hop : ∀ id, a.opened.head? = some id → operation.InReach a.headings id)
    (hstore : ∀ slot, operation = .storeLocal slot → ∃ v source,
      slot.declared? a.headings = some v ∧ a.last? = some (.plain (.convert v.type source))) :
    a'.InReach ∧ a'.opened = a.opened ∧ a'.last? = some (.plain operation) := by
  obtain ⟨id, m, m', hid, hm, hstep, rfl⟩ := onCurrent_ok hrun
  cases hstep
  -- the last instruction of the program is that of the method that is written
  have hlast : a.last? = m.code.back? := by simp [last?, hid, hm]
  rw [hlast] at hstore
  refine ⟨h.put_code hm rfl ((h id m hm).add (hop id hid) hstore), rfl, ?_⟩
  have hget := getElem?_put hm { m with code := m.code.push (.plain operation) } id
  rw [if_pos rfl] at hget
  show ((a.put id _).opened.head?.bind _).bind _ = _
  rw [show (a.put id { m with code := m.code.push (.plain operation) }).opened = a.opened from rfl,
    hid, Option.bind_some, hget, Option.bind_some, Array.back?_push]

/-- A parameter is loaded by its own method, or the request is refused. -/
theorem inReach_of_loadParameter {slot : ParameterSlot} {x : Unit}
    (hrun : (Call.loadParameter slot).run a = .ok x a') (h : a.InReach)
    (hslot : slot.Declared a.headings) : a'.InReach ∧ a'.opened = a.opened := by
  obtain ⟨id, m, m', hid, hm, hstep, rfl⟩ := onCurrent_ok hrun
  split at hstep
  · next hmethod =>
    cases hstep
    subst hmethod
    exact ⟨h.put_code hm rfl ((h _ m hm).add hslot fun _ heq => by cases heq), rfl⟩
  · cases hstep

/-- A method that is ended may have got one more return, which names no variable. -/
theorem inReach_of_endMethod {closed : Method.Closed} (hrun : Call.endMethod.run a = .ok closed a')
    (h : a.InReach) : a'.InReach ∧ a'.opened = a.opened.tail := by
  replace hrun : Assembler.endMethod a = .ok closed a' := hrun
  cases hclose : Assembler.onCurrent (fun _ => Method.close) a with
  | error f a₁ => simp [Assembler.endMethod, bind, EStateM.bind, hclose] at hrun
  | ok x a₁ =>
    simp only [Assembler.endMethod, bind, EStateM.bind, hclose] at hrun
    cases hrun
    have hkeeps := h.onCurrent (fun id m x m' hstep => ?_) hclose
    · refine ⟨hkeeps.1, ?_⟩
      show a₁.opened.tail = _
      rw [hkeeps.2]
    · refine ⟨Method.heading_of_close hstep, fun headings hm => ?_⟩
      unfold Method.close at hstep
      split at hstep
      · cases hstep
      · dsimp only at hstep
        cases hstep
        split
        · exact hm
        · exact hm.add trivial fun _ heq => by cases heq

/-- A local gets the next slot of its method, and the slots given before stay what they were. -/
theorem inReach_of_declareLocal {name : String} {ty : Ty} {slot : LocalSlot}
    (hrun : (Call.declareLocal name ty).run a = .ok slot a') (h : a.InReach) :
    a'.InReach ∧ a'.opened = a.opened ∧ Grown a.headings a'.headings ∧
      slot.declared? a'.headings = some ⟨name, ty⟩ := by
  obtain ⟨id, m, m', hid, hm, hstep, rfl⟩ := onCurrent_ok hrun
  cases hstep
  have hheading := getElem?_headings hm
  have hgrown : Grown a.headings
      (a.put id { m with locals := m.locals.push ⟨name, ty⟩ }).headings := by
    rw [headings_put]
    refine .set hheading ?_ rfl
    simp [Method.heading]
  refine ⟨h.put hgrown ((h id m hm).of_operations fun _ _ => Iff.rfl), rfl, hgrown, ?_⟩
  rw [LocalSlot.declared?, headings_put,
    List.getElem?_set_self (List.getElem?_eq_some_iff.mp hheading).1]
  simp [Method.heading]

/-- A new method is the innermost one that is open. -/
theorem inReach_of_declareMethod {name : String} {type : Ty} {types : List Ty} {id : MethodId}
    (hrun : (Call.declareMethod name type types).run a = .ok id a') (h : a.InReach) :
    a'.InReach ∧ a'.opened = id :: a.opened ∧ Grown a.headings a'.headings := by
  have hgrown : Grown a.headings a'.headings := by
    rw [(headings_of_declareMethod hrun).2]
    exact .append _ _
  obtain ⟨methods, hmethods, hopened⟩ : ∃ parameters, a'.methods =
      a.methods.push { name, returnType := type, parameters } ∧ a'.opened = id :: a.opened := by
    obtain ⟨_ | p, opened⟩ := a
    · cases hrun
      exact ⟨_, rfl, rfl⟩
    · cases hrun
      exact ⟨_, rfl, rfl⟩
  refine ⟨fun k m hm => ?_, hopened, hgrown⟩
  rw [hmethods, Array.getElem?_push] at hm
  split at hm
  · -- a new method has no code
    cases hm
    exact ⟨fun k _ hk => by simp at hk, fun k _ hk => by simp at hk⟩
  · exact (h k m hm).grow hgrown

/-- A parameter that gets its name has a slot.  Only a parameter that was declared with the method
can get one. -/
theorem inReach_of_declareParameter {method : MethodId} {name : String} {ordinal : Nat} {type : Ty}
    {slot : ParameterSlot}
    (hrun : (Call.declareParameter method name ordinal type).run a = .ok slot a')
    (h : a.InReach) :
    a'.InReach ∧ a'.opened = a.opened ∧ Grown a.headings a'.headings ∧
      slot.Declared a'.headings := by
  replace hrun : Assembler.declareParameter method name ordinal type a = .ok slot a' := hrun
  cases hname : onMethod method (Method.nameParameter name ordinal type) a with
  | error f a₁ => simp [Assembler.declareParameter, bind, EStateM.bind, hname] at hrun
  | ok y a₁ =>
    simp only [Assembler.declareParameter, bind, EStateM.bind, hname] at hrun
    cases hrun
    obtain ⟨m, m', hm, hstep, rfl⟩ := onMethod_ok hname
    have hheading := getElem?_headings hm
    unfold Method.nameParameter at hstep
    split at hstep
    · cases hstep
    · next index =>
      split at hstep
      · next htype =>
        cases hstep
        -- the parameter was there, since it has a type
        have hlt : index < m.parameters.size := by
          obtain ⟨parameter, hparameter, -⟩ := Option.map_eq_some_iff.mp htype
          exact (Array.getElem?_eq_some_iff.mp hparameter).1
        have hgrown : Grown a.headings (a.put method
            { m with parameters :=
              m.parameters.setIfInBounds index ⟨type, some name⟩ }).headings := by
          rw [headings_put]
          refine .set hheading (List.prefix_refl _) ?_
          simp [Method.heading]
        have hslot : ParameterSlot.Declared a.headings ⟨method, index + 1⟩ :=
          ⟨m.heading, hheading, Nat.le_add_left 1 index, hlt⟩
        exact ⟨h.put hgrown ((h method m hm).of_operations fun _ _ => Iff.rfl), rfl, hgrown,
          hgrown.declared hslot⟩
      · cases hstep

end Call

/-- Ending methods adds nothing but returns, so what is left open at the end of a pass does no
harm. -/
theorem InReach.endMethods {s s' : Logged Assembler} {count : Nat} {x : Unit}
    (h : s.value.InReach) (hrun : Assembler.endMethods count s = .ok x s') : s'.value.InReach := by
  induction count generalizing s with
  | zero =>
    obtain ⟨-, rfl⟩ := EStateM.Result.ok.inj hrun
    exact h
  | succ count ih =>
    obtain ⟨a, log⟩ := s
    cases hend : Call.endMethod.run a with
    | error f a₁ =>
      simp only [Assembler.endMethods, bind, EStateM.bind, Call.perform, Logged.record,
        Logged.silently, hend] at hrun
      cases hrun
    | ok closed a₁ =>
      obtain ⟨log₁, hperform⟩ := Call.perform_ok hend log
      simp only [Assembler.endMethods, bind, EStateM.bind, hperform] at hrun
      exact ih (Call.inReach_of_endMethod hend h).1 hrun

/-- The methods of the program that is finished are those of the assembler, with returns added. -/
theorem InReach.finish {log : Array Event} {s' : Logged Assembler} {p : Program} (h : a.InReach)
    (hrun : Assembler.finish ⟨a, log⟩ = .ok p s') (id : MethodId) (m : Method)
    (hm : p.methods[id]? = some m) : m.InReach (p.methods.toList.map Method.heading) id := by
  cases hend : Assembler.endMethods a.opened.length ⟨a, log⟩ with
  | error f s₁ =>
    rw [finish_of_error hend] at hrun
    cases hrun
  | ok x s₁ =>
    rw [finish_of_ok hend] at hrun
    cases hprogram : s₁.value.program with
    | none =>
      rw [hprogram] at hrun
      cases hrun
    | some program =>
      rw [hprogram] at hrun
      obtain ⟨rfl, rfl⟩ := EStateM.Result.ok.inj hrun
      have hmethods : s₁.value.methods = program.methods := by simp [methods, hprogram]
      have hreach := InReach.endMethods (s := ⟨a, log⟩) h hend id m (hmethods ▸ hm)
      rwa [headings, hmethods] at hreach

end Assembler

/-! ### Entities -/

/-- What an entity tells about its slot is right.  A parameter may not have its slot yet, and then
it tells nothing. -/
def Entity.Known (headings : List Heading) : Entity → Prop
  | .local name ty slot => slot.declared? headings = some ⟨name, ty⟩
  | .parameter _ _ _ (some slot) => slot.Declared headings
  | _ => True

theorem Entity.Known.grow {headings headings' : List Heading} {entity : Entity}
    (h : entity.Known headings) (hgrown : Grown headings headings') : entity.Known headings' := by
  cases entity with
  | «local» name ty slot => exact hgrown.declared? h
  | parameter name ty ordinal slot =>
    cases slot with
    | none => trivial
    | some slot => exact hgrown.declared h
  | _ => trivial

namespace Scopes

variable {headings : List Heading} {s s' : Scopes}

/-- A slot that a change of the scopes tells is that of the variable it is told for. -/
def Call.Tells (headings : List Heading) : Call → Prop
  | .declareGlobal entity => entity.Known headings
  | .declareLocal name ty slot => Entity.Known headings (.local name ty slot)
  | .attachParameter _ slot => slot.Declared headings
  | _ => True

/-- One more entity that tells its slot right. -/
theorem known_declare (h : ∀ entity ∈ s.entities, entity.Known headings) {entity : Entity}
    (hentity : entity.Known headings) :
    ∀ e ∈ (s.declare entity).2.entities, e.Known headings := by
  intro e he
  rw [entities_declare] at he
  rcases Array.mem_push.mp he with he | rfl
  · exact h e he
  · exact hentity

/-- What the entities tell stays right under every change of the scopes that tells its own slots
right. -/
theorem Call.known {c : Call} (hc : c.Tells headings) {x : c.Answer} (hrun : c.run s = .ok x s')
    (h : ∀ entity ∈ s.entities, entity.Known headings) :
    ∀ entity ∈ s'.entities, entity.Known headings := by
  cases c with
  | enter =>
    cases hrun
    exact h
  | exit =>
    obtain ⟨entities, outermost, program, nested⟩ := s
    cases nested <;> cases hrun
    exact h
  | declareGlobal entity =>
    cases hrun
    intro e he
    rcases Array.mem_push.mp he with he | rfl
    · exact h e he
    · exact hc
  | declareMethod name returnType =>
    cases (Production.run_modifyGet_declare s _).symm.trans hrun
    exact known_declare h trivial
  | declareParameter name ty ordinal =>
    cases (Production.run_modifyGet_declare s _).symm.trans hrun
    exact known_declare h trivial
  | declareLocal name ty slot =>
    cases (Production.run_modifyGet_declare s _).symm.trans hrun
    exact known_declare h hc
  -- an entity that is changed in place tells what the change says
  | attachMethod id method parameters =>
    replace hrun : Scopes.attachMethod id method parameters s = .ok x s' := hrun
    unfold Scopes.attachMethod at hrun
    split at hrun <;> cases hrun
    intro e he
    rcases Array.mem_or_eq_of_mem_setIfInBounds he with he | rfl
    · exact h e he
    · trivial
  | attachParameter id slot =>
    replace hrun : Scopes.attachParameter id slot s = .ok x s' := hrun
    unfold Scopes.attachParameter at hrun
    split at hrun <;> cases hrun
    intro e he
    rcases Array.mem_or_eq_of_mem_setIfInBounds he with he | rfl
    · exact h e he
    · exact hc

end Scopes

/-! ### Productions -/

/-- The methods that are open in the program are the given ones, the entry method last; the
entities tell their slots right, and the code of all methods names only variables within
reach. -/
structure State.Slotted (s : State) (methods : List MethodId) : Prop where
  opened : s.assembler.opened = methods
  entry : methods.getLast? = some 0
  known : ∀ entity ∈ s.scopes.entities, entity.Known s.assembler.headings
  code : s.assembler.InReach

/-- Between two states of the pass the methods have only got more locals. -/
structure State.Extends (s s' : State) : Prop where
  methods : s'.methods = s.methods
  grown : Grown s.assembler.headings s'.assembler.headings

namespace State

variable {s s₁ s' : State} {methods : List MethodId}

theorem Extends.refl (s : State) : s.Extends s := ⟨rfl, .refl _⟩

theorem Extends.trans (h : s.Extends s₁) (h' : s₁.Extends s') : s.Extends s' :=
  ⟨h'.methods.trans h.methods, h.grown.trans h'.grown⟩

/-- Where scopes and program are the same nothing has changed. -/
theorem Slotted.of_same (h : s.Slotted methods) (hsame : s.Same s') :
    s'.Slotted methods ∧ s.Extends s' := by
  refine ⟨⟨?_, h.entry, ?_, ?_⟩, hsame.methods, ?_⟩
  · rw [hsame.assembler]
    exact h.opened
  · rw [hsame.scopes, hsame.assembler]
    exact h.known
  · rw [hsame.assembler]
    exact h.code
  · rw [hsame.assembler]
    exact .refl _

/-- What a name stands for tells its slot right, as everything that was ever declared does. -/
theorem Slotted.find? (h : s.Slotted methods) {name : String} {entity : Entity}
    (hentity : s.scopes.find? name = some entity) : entity.Known s.assembler.headings := by
  obtain ⟨id, -, hid⟩ := Option.bind_eq_some_iff.mp hentity
  exact h.known entity (Array.mem_of_getElem? hid)

/-- The entry method, or the innermost one, is within reach of the latter.  The pass has its own
list of open methods, which is the same as the program's. -/
theorem Slotted.reaches (h : s.Slotted s.methods) {id owner : MethodId}
    (hid : s.assembler.opened.head? = some id)
    (howner : s.methods.head? = some owner ∨ s.methods.getLast? = some owner) :
    owner = id ∨ owner = 0 := by
  rw [h.opened] at hid
  rcases howner with howner | howner
  · exact .inl (Option.some.inj (howner.symm.trans hid))
  · exact .inr (Option.some.inj (howner.symm.trans h.entry))

end State

namespace Production

variable {α : Type}

/-- A production after which the program and the scopes are still as they should be. -/
structure Slots (p : Production α) : Prop where
  keeps : ∀ s : State, s.Slotted s.methods →
    Ends p s (fun _ s' => s'.Slotted s.methods ∧ s.Extends s') fun _ _ => True

/-- A step that leaves scopes and program alone. -/
theorem slots_of_same {p : Production α}
    (hp : ∀ s, Ends p s (fun _ s' => s.Same s') fun _ _ => True) : Slots p :=
  ⟨fun s hs => (hp s).imp fun _ _ hsame => hs.of_same hsame⟩

/-- What follows a step, told from where the step began. -/
theorem Slots.then {p : Production α} (hp : Slots p) {s s₁ : State} (hs₁ : s₁.Slotted s.methods)
    (h₁ : s.Extends s₁) :
    Ends p s₁ (fun _ s' => s'.Slotted s.methods ∧ s.Extends s') fun _ _ => True := by
  have hkeeps := hp.keeps s₁ (h₁.methods ▸ hs₁)
  rw [h₁.methods] at hkeeps
  exact hkeeps.imp fun _ _ h' => ⟨h'.1, h₁.trans h'.2⟩

section

variable {s : State} {methods : List MethodId} (hs : s.Slotted methods)
include hs

/-- A request that keeps the program as it should be, and opens or ends methods in the program if it
has to. -/
theorem assemble_slots {c : Assembler.Call} {methods' : List MethodId}
    {P : c.Answer → Assembler → Prop} (hentry : methods'.getLast? = some 0)
    (h : ∀ x a, c.run s.assembler = .ok x a →
      a.InReach ∧ a.opened = methods' ∧ Grown s.assembler.headings a.headings ∧ P x a) :
    Ends (assemble c) s
      (fun x s' => (s'.Slotted methods' ∧ s.Extends s') ∧ s'.scopes = s.scopes ∧ P x s'.assembler)
      fun _ _ => True := by
  refine ends_assemble_run fun x a log hrun => ?_
  obtain ⟨hcode, hopened, hgrown, hP⟩ := h x a hrun
  exact ⟨⟨⟨hopened, hentry, fun entity he => (hs.known entity he).grow hgrown, hcode⟩, rfl, hgrown⟩,
    rfl, hP⟩

/-- A request that declares nothing and opens no method. -/
theorem quiet_slots {c : Assembler.Call} (hc : c.Quiet)
    (h : ∀ x a, c.run s.assembler = .ok x a → a.InReach ∧ a.opened = s.assembler.opened) :
    Ends (assemble c) s (fun _ s' => s'.Slotted methods ∧ s.Extends s') fun _ _ => True := by
  refine (assemble_slots hs (P := fun _ _ => True) hs.entry fun x a hrun => ?_).imp
    fun _ _ h' => h'.1
  obtain ⟨hcode, hopened⟩ := h x a hrun
  have hheadings := Assembler.Call.headings_of_quiet hc hrun
  exact ⟨hcode, hopened.trans hs.opened, hheadings ▸ .refl _, trivial⟩

/-- A change of the scopes leaves the program alone, so only what it tells has to be right. -/
theorem scope_slots {c : Scopes.Call} (hc : c.Tells s.assembler.headings) :
    Ends (scope c) s (fun _ s' => s'.Slotted methods ∧ s.Extends s') fun _ _ => True :=
  ends_scope_run fun _ _ _ hrun =>
    ⟨⟨hs.opened, hs.entry, Scopes.Call.known hc hrun hs.known, hs.code⟩, rfl, .refl _⟩

/-- An operation is emitted whose variables are within reach.  It is the last instruction then,
which the next one may look back at. -/
theorem emit_slots {operation : Operation}
    (hop : ∀ id, s.assembler.opened.head? = some id → operation.InReach s.assembler.headings id)
    (hstore : ∀ slot, operation = .storeLocal slot → ∃ v source,
      slot.declared? s.assembler.headings = some v ∧
      s.assembler.last? = some (.plain (.convert v.type source))) :
    Ends (emit operation) s (fun _ s' => (s'.Slotted methods ∧ s.Extends s') ∧
      s'.assembler.last? = some (.plain operation)) fun _ _ => True := by
  refine (assemble_slots hs (c := .emit operation)
    (P := fun _ a => a.last? = some (.plain operation)) hs.entry fun x a hrun => ?_).imp
    fun _ _ h' => ⟨h'.1, h'.2.2⟩
  obtain ⟨hcode, hopened, hlast⟩ := Assembler.Call.inReach_of_emit hrun hs.code hop hstore
  have hheadings := Assembler.Call.headings_of_quiet (c := .emit operation) trivial hrun
  exact ⟨hcode, hopened.trans hs.opened, hheadings ▸ .refl _, hlast⟩

end

/-- An operation that has to do with no variable. -/
theorem slots_emit {operation : Operation} (hop : ∀ headings id, operation.InReach headings id)
    (hstore : ∀ slot, operation ≠ .storeLocal slot) : Slots (emit operation) :=
  ⟨fun _ hs => (emit_slots hs (fun _ _ => hop _ _) fun slot heq => absurd heq (hstore slot)).imp
    fun _ _ h => h.1⟩

/-- What uses no variables keeps everything as it should be. -/
theorem slots_closed : Closed fun _ p => Slots p where
  pure _ := ⟨fun s hs => ⟨hs, .refl s⟩⟩
  bind {α β p f} hp hf := by
    refine ⟨fun s hs => (hp.keeps s hs).bind ?_⟩
    rintro a s₁ ⟨hs₁, h₁⟩
    exact (hf a).then hs₁ h₁
  view _ := ⟨fun s hs => ⟨hs, .refl s⟩⟩
  accept? select := slots_of_same fun s => ends_accept? (fun _ _ => .advance s) fun _ => .refl s
  accept kind := slots_of_same fun s => ends_accept (fun _ => .advance s) fun _ => .refl s
  errorAt p e := slots_of_same fun s => .errorAt s p e
  error e := slots_of_same fun s => .errorAt s _ e
  emit {operation} hop := by
    refine slots_emit (fun _ _ => hop.inReach _ _) ?_
    rintro slot rfl
    exact hop
  returnType := ⟨fun _ hs => quiet_slots hs (c := .returnType) trivial fun _ _ hrun =>
    Assembler.Call.inReach_of_returnType hrun hs.code⟩

theorem slots_labelled : Labelled fun _ p => Slots p where
  toSequential := slots_closed.toSequential
  warn p w := slots_of_same fun s => .report s _
  label c hc := ⟨fun _ hs => quiet_slots hs hc.quiet fun _ _ hrun =>
    Assembler.Call.inReach_of_labels hc hrun hs.code⟩
  halt _ := ⟨fun _ _ => trivial⟩
  ensuring {α p last} hp hl := by
    refine ⟨fun s hs => Ends.ensuring ((hp.keeps s hs).mono ?_ ?_)⟩
    · rintro a s₁ ⟨hs₁, h₁⟩
      exact hl.then hs₁ h₁
    · exact fun _ _ _ => ends_of_forall (fun _ _ => trivial) fun _ _ => trivial
  touch {g} hg := by
    refine ⟨fun s hs => ?_⟩
    obtain ⟨loops, recovering, log, h⟩ := hg s
    show (g s).Slotted s.methods ∧ s.Extends (g s)
    rw [h]
    exact ⟨⟨hs.opened, hs.entry, hs.known, hs.code⟩, rfl, .refl _⟩
  skipUnexpected := slots_of_same fun s => .skipUnexpected s

/-! ### Using variables -/

section

variable {s : State} (hs : s.Slotted s.methods) {entity : Entity}
  (hentity : entity.Known s.assembler.headings)
include hs hentity

/-- What is loaded is within reach.  The pass asks for the method that a local is in, and that the
entity knows from its slot. -/
theorem load_slots (options : Options) (name : String) (p : Position) :
    Ends (load options entity name p) s (fun _ s' => s'.Slotted s.methods ∧ s.Extends s')
      fun _ _ => True := by
  have hC := slots_closed
  have hrefuse (e : ParseError) : Slots (refuse p e) :=
    hC.bind (hC.errorAt p e) fun _ => hC.pure none
  cases entity with
  | type _ _ => exact (hrefuse _).keeps s hs
  | method _ _ _ _ => exact (hrefuse _).keeps s hs
  | «local» _ ty slot =>
    refine ends_bind.mpr (ends_view.mpr ?_)
    split
    · next hreaches =>
      have hop : ∀ id, s.assembler.opened.head? = some id →
          Operation.InReach s.assembler.headings id (.loadLocal slot) := fun id hid =>
        ⟨hs.reaches hid (of_decide_eq_true hreaches), _, hentity⟩
      refine (emit_slots hs hop fun _ heq => by cases heq).bind ?_
      rintro _ s₁ ⟨⟨hs₁, h₁⟩, -⟩
      refine Slots.then (hC.bind ?_ fun _ => hC.pure _) hs₁ h₁
      unfold localType
      split
      · exact hC.pure _
      · exact hC.view _
    · exact (hrefuse _).keeps s hs
  | parameter _ ty ordinal slot =>
    cases slot with
    | none => exact (hrefuse _).keeps s hs
    | some slot =>
      refine ends_bind.mpr (ends_view.mpr ?_)
      split
      · refine (quiet_slots hs (c := .loadParameter slot) trivial fun _ _ hrun =>
          Assembler.Call.inReach_of_loadParameter hrun hs.code hentity).bind fun _ s₁ h₁ => h₁
      · exact (hrefuse _).keeps s hs

/-- What is stored is within reach, and has been turned into a value of the right type.  Both
operations are emitted one after the other, with nothing in between. -/
theorem store_slots (name : String) (p : Position) (value : Ty) (valuePosition : Position) :
    Ends (store entity name p value valuePosition) s
      (fun _ s' => s'.Slotted s.methods ∧ s.Extends s') fun _ _ => True := by
  have hC := slots_closed
  cases entity with
  | type _ _ => exact (hC.errorAt _ _).keeps s hs
  | method _ _ _ _ => exact (hC.errorAt _ _).keeps s hs
  | parameter _ _ _ _ => exact (hC.errorAt _ _).keeps s hs
  | «local» x ty slot =>
    refine ends_bind.mpr (ends_view.mpr ?_)
    split
    · next hreaches =>
      refine ((hC.check _ _ _).keeps s hs).bind ?_
      rintro _ s₁ ⟨hs₁, h₁⟩
      have hconvert : ∀ id, s₁.assembler.opened.head? = some id →
          Operation.InReach s₁.assembler.headings id (.convert ty value) := fun _ _ => trivial
      refine (emit_slots hs₁ hconvert fun _ heq => (by cases heq)).bind ?_
      rintro _ s₂ ⟨⟨hs₂, h₂⟩, hlast⟩
      -- the value has just been turned into one of the type of the local
      have h₂ := h₁.trans h₂
      have hslot : slot.declared? s₂.assembler.headings = some ⟨x, ty⟩ := h₂.grown.declared? hentity
      have hop : ∀ id, s₂.assembler.opened.head? = some id →
          Operation.InReach s₂.assembler.headings id (.storeLocal slot) := fun id hid =>
        ⟨hs.reaches (by rwa [hs.opened, ← hs₂.opened]) (of_decide_eq_true hreaches), _, hslot⟩
      refine (emit_slots hs₂ hop ?_).imp fun _ _ h₃ => ⟨h₃.1.1, h₂.trans h₃.1.2⟩
      rintro _ ⟨⟩
      exact ⟨_, value, hslot, hlast⟩
    · exact (hC.errorAt _ _).keeps s hs

end

/-- A name is looked up before the equal sign, and its value read after that. -/
theorem slots_named (options : Options) {expression : Production (Option Ty)}
    (he : Slots expression) (name : String) (p : Position) :
    Slots (named options expression name p) := by
  have hC := slots_closed
  refine ⟨fun s hs => ends_bind.mpr (ends_view.mpr ?_)⟩
  cases hfind : s.scopes.find? name with
  | none => exact Slots.keeps (hC.bind (hC.errorAt _ _) fun _ => hC.pure _) s hs
  | some entity =>
    have hentity := hs.find? hfind
    refine ends_bind.mpr (((hC.accept _).keeps s hs).imp ?_)
    rintro equal s₁ ⟨hs₁, h₁⟩
    rw [← h₁.methods] at hs₁
    -- the entity is known before the value is read and after it
    cases equal with
    | false =>
      refine (load_slots hs₁ (hentity.grow h₁.grown) options name p).bind ?_
      rintro _ s₂ ⟨hs₂, h₂⟩
      exact ⟨h₁.methods ▸ hs₂, h₁.trans h₂⟩
    | true =>
      refine ends_bind.mpr (ends_view.mpr (((hC.operand he).keeps s₁ hs₁).bind ?_))
      rintro value s₂ ⟨hs₂, h₂⟩
      rw [← h₂.methods] at hs₂
      have h₂ := h₁.trans h₂
      refine (store_slots hs₂ (hentity.grow h₂.grown) name p value _).bind ?_
      rintro _ s₃ ⟨hs₃, h₃⟩
      exact Slots.then (hC.bind (hC.expect _) fun _ => hC.pure _) (h₂.methods ▸ hs₃) (h₂.trans h₃)

/-- To print a name is to load it, and it is looked up right before. -/
theorem slots_printNamed (options : Options) (name : String) (p : Position) :
    Slots (printNamed options name p) := by
  have hC := slots_closed
  refine ⟨fun s hs => ends_bind.mpr (ends_view.mpr ?_)⟩
  cases hfind : s.scopes.find? name with
  | none => exact (hC.errorAt _ _).keeps s hs
  | some entity =>
    let s₁ : State := { s with log := s.log.push (.printed entity (s.scopes.declaredHere name)) }
    have hs₁ : s₁.Slotted s₁.methods := ⟨hs.opened, hs.entry, hs.known, hs.code⟩
    refine ends_bind.mpr (ends_modify.mpr
      ((load_slots hs₁ (hs.find? hfind) options name p).bind ?_))
    rintro ty s₂ ⟨hs₂, h₂⟩
    have hprint : Slots (emit .print) := slots_emit (fun _ _ => trivial) fun _ heq => by cases heq
    exact Slots.then (s := s) (mem_ite (C := fun _ p => Slots p) hprint (hC.pure ())) hs₂
      ⟨h₂.methods, h₂.grown⟩

/-! ### Declarations -/

/-- A local gets the slot that is told to the scopes. -/
theorem slots_declareLocal (name : String) (ty : Ty) : Slots (declareLocal name ty) := by
  refine ⟨fun s hs => ?_⟩
  refine (assemble_slots hs (c := .declareLocal name ty)
    (P := fun slot a => slot.declared? a.headings = some ⟨name, ty⟩) hs.entry ?_).bind ?_
  · intro slot a hrun
    obtain ⟨hcode, hopened, hgrown, hslot⟩ := Assembler.Call.inReach_of_declareLocal hrun hs.code
    exact ⟨hcode, hopened.trans hs.opened, hgrown, hslot⟩
  · rintro slot s₁ ⟨⟨hs₁, h₁⟩, -, hslot⟩
    refine (scope_slots hs₁ (c := .declareLocal name ty slot) hslot).bind ?_
    rintro _ s₂ ⟨hs₂, h₂⟩
    exact ⟨hs₂, h₁.trans h₂⟩

theorem slots_declaring : Declaring fun _ _ p => Slots p where
  toPlaced := slots_closed.placed
  declareLocal := slots_declareLocal
  declareParameter name ty ordinal :=
    ⟨fun _ hs => scope_slots hs (c := .declareParameter name ty ordinal) trivial⟩
  broken f := slots_labelled.halt (.broken f)

/-- The parameters of a method get their slots while the method is open in the program only, which
is before the pass has put it on its list. -/
theorem attachFormals_slots {methods : List MethodId} (id : MethodId) (parameters : List Formal)
    (s : State) (hs : s.Slotted methods) :
    Ends (attachFormals id parameters) s (fun _ s' => s'.Slotted methods ∧ s.Extends s')
      fun _ _ => True := by
  induction parameters generalizing s with
  | nil => exact ⟨hs, .refl s⟩
  -- the program gives the slot, and the scopes are told
  | cons parameter rest ih =>
    refine ends_bind.mpr ((assemble_slots hs
      (c := .declareParameter id parameter.name parameter.ordinal parameter.ty)
      (P := fun slot a => slot.Declared a.headings) hs.entry fun slot a hrun => ?_).bind ?_)
    · obtain ⟨hcode, hopened, hgrown, hslot⟩ :=
        Assembler.Call.inReach_of_declareParameter hrun hs.code
      exact ⟨hcode, hopened.trans hs.opened, hgrown, hslot⟩
    · rintro slot s₁ ⟨⟨hs₁, h₁⟩, -, hslot⟩
      refine (scope_slots hs₁ (c := .attachParameter parameter.id slot) hslot).imp ?_
      rintro _ s₂ ⟨hs₂, h₂⟩
      exact (ih s₂ hs₂).imp fun _ _ h₃ => ⟨h₃.1, (h₁.trans h₂).trans h₃.2⟩

/-- A method is opened in the program first, and the scopes learn of it when its parameters have
their slots. -/
theorem openMethod_slots {s : State} (hs : s.Slotted s.methods) (entity : EntityId)
    (returnType : Ty) (name : String) (parameters : List Formal) :
    Ends (openMethod entity returnType name parameters) s
      (fun id s' => s'.Slotted (id :: s.methods) ∧ s.Extends s') fun _ _ => True := by
  refine ends_bind.mpr (ends_assemble_run fun id a log hrun => ?_)
  obtain ⟨hcode, hopened, hgrown⟩ := Assembler.Call.inReach_of_declareMethod hrun hs.code
  -- the entry method is still the last one, as there is a method open around the new one
  have hne : s.methods ≠ [] := by
    intro hnil
    have hentry := hs.entry
    simp [hnil] at hentry
  have hs₁ : State.Slotted { s with assembler := a, log } (id :: s.methods) :=
    ⟨hopened.trans (congrArg _ hs.opened), by rw [List.getLast?_cons_of_ne_nil hne, hs.entry],
      fun entity he => (hs.known entity he).grow hgrown, hcode⟩
  refine (attachFormals_slots id parameters _ hs₁).bind ?_
  rintro _ s₂ ⟨hs₂, h₂⟩
  refine (scope_slots hs₂ (c := .attachMethod entity id (parameters.map Formal.id)) trivial).bind ?_
  rintro _ s₃ ⟨hs₃, h₃⟩
  exact ⟨hs₃, h₃.methods.trans h₂.methods, (hgrown.trans h₂.grown).trans h₃.grown⟩

section

variable {item : Production Bool} (hi : Slots item) (budget : Nat)
include hi

/-- The body of a method is read while the method is the innermost one, in the program and in
the pass. -/
theorem slots_methodRest (entity : EntityId) (returnType : Ty) (name : String) :
    Slots (methodRest budget item entity returnType name) := by
  have hC := slots_closed
  refine hC.bind (slots_declaring.formals budget #[] []) fun parameters =>
    hC.bind (hC.expect _) fun _ => ⟨fun s hs => ?_⟩
  refine (openMethod_slots hs entity returnType name parameters.toList).bind ?_
  rintro id s₁ ⟨hs₁, h₁⟩
  refine Ends.bind (Q := fun _ s₂ => s₂.Slotted (id :: s.methods) ∧ s.Extends s₂) ?_ ?_
  · -- the pass puts the method on its list, and takes it off whatever happens
    refine ends_bind.mpr (ends_modify.mpr (Ends.ensuring ?_))
    have hmethods : id :: s₁.methods = id :: s.methods := by rw [h₁.methods]
    refine ((hC.body hi budget).keeps { s₁ with methods := id :: s₁.methods }
      (hmethods ▸ ⟨hs₁.opened, hs₁.entry, hs₁.known, hs₁.code⟩)).mono ?_
      fun _ _ _ => ends_of_forall (fun _ _ => trivial) fun _ _ => trivial
    rintro _ s₂ ⟨hs₂, h₂⟩
    have htail : s₂.methods.tail = s.methods := by rw [h₂.methods]; exact h₁.methods
    exact ⟨hmethods ▸ ⟨hs₂.opened, hs₂.entry, hs₂.known, hs₂.code⟩, htail,
      h₁.grown.trans h₂.grown⟩
  · rintro _ s₂ ⟨hs₂, h₂⟩
    -- the method is ended in the program when the pass has taken it off its list
    refine ends_bind.mpr ((assemble_slots hs₂ (c := .endMethod) (P := fun _ _ => True) hs.entry
      fun x a hrun => ?_).imp ?_)
    · obtain ⟨hcode, hopened⟩ := Assembler.Call.inReach_of_endMethod hrun hs₂.code
      have hheadings := Assembler.Call.headings_of_quiet (c := .endMethod) trivial hrun
      exact ⟨hcode, by rw [hopened, hs₂.opened, List.tail_cons], hheadings ▸ .refl _, trivial⟩
    · rintro _ s₃ ⟨⟨hs₃, h₃⟩, -⟩
      exact ⟨hs₃, h₂.trans h₃⟩

/-- A method is declared and its scope entered before it is opened, and left when it has been
ended. -/
theorem slots_method (returnType : Ty) (name : String) (p : Position) :
    Slots (method budget item returnType name p) := by
  have hC := slots_labelled
  refine hC.bind (slots_closed.checkFresh _ _ _) fun _ => hC.bind
    ⟨fun _ hs => scope_slots hs (c := .declareMethod name returnType) trivial⟩ fun entity => ?_
  refine hC.bind ⟨fun _ hs => scope_slots hs (c := .enter) trivial⟩ fun _ =>
    hC.bind (hC.view _) fun loops => hC.bind (hC.touch fun _ => ⟨_, _, _, rfl⟩) fun _ => ?_
  refine hC.ensuring (slots_methodRest hi budget _ _ _) ?_
  exact hC.bind (hC.touch fun _ => ⟨_, _, _, rfl⟩) fun _ =>
    ⟨fun _ hs => scope_slots hs (c := .exit) trivial⟩

theorem slots_declarationForm : Slots (declarationForm budget item) := by
  have hC := slots_closed
  refine hC.bind (hC.accept? _) fun ty => ?_
  cases ty with
  | none => exact hC.pure false
  | some ty =>
    refine hC.bind ?_ fun _ => hC.pure true
    refine hC.bind (hC.view _) fun p => hC.bind (hC.accept? _) fun name => ?_
    cases name with
    | none => exact hC.error _
    | some name =>
      exact hC.bind (hC.accept _) fun _ => mem_ite (C := fun _ p => Slots p)
        (slots_method hi budget ty name p)
        (slots_declaring.field (List.mem_singleton_self p) ty name)

end

theorem slots_grammar (options : Options) : Grammar options fun _ p => Slots p :=
  slots_labelled.grammar slots_closed (slots_named options) (slots_printNamed options)
    slots_declarationForm

end Production

/-! ### Whole sources -/

open Production

/-- When the program has been begun, there is no code and no variable; the types are all that is
declared. -/
theorem begunState_slotted {options : Options} (source : String) {assembler : Assembler}
    (h : assembler.Shows (begunOutline options)) (log : Array Event) :
    (begunState source assembler log).Slotted (begunState source assembler log).methods := by
  have hscopes : (begunState source assembler log).scopes = .initial :=
    (State.Same.advance (.start (lexemes source))).scopes
  obtain ⟨methods, rfl, -, hdrafts⟩ := h
  refine ⟨rfl, rfl, ?_, ?_⟩
  · rw [hscopes]
    intro entity hentity
    rw [← Array.mem_toList_iff, Scopes.toList_entities_initial] at hentity
    obtain ⟨t, -, rfl⟩ := List.mem_map.mp hentity
    trivial
  · intro id m hm
    have hcode : m.code = #[] := by
      have hdraft : m.draft ∈ methods.toList.map Method.draft :=
        List.mem_map_of_mem (Array.mem_toList_iff.mpr (Array.mem_of_getElem? hm))
      rw [hdrafts] at hdraft
      have hnil := congrArg Draft.code (List.mem_singleton.mp hdraft)
      exact Array.toList_eq_nil_iff.mp hnil
    exact ⟨fun _ _ hk => by simp [hcode] at hk, fun _ _ hk => by simp [hcode] at hk⟩

/-- **Every slot in the code of a program is that of a variable within reach.**  After a pass
that comes to its end, errors or not, the program can be had; in it, a method loads and
stores only locals of its own and of the entry method, and loads only parameters of its own,
and what it stores in a local it has just turned into a value of the type of that local. -/
theorem variables_in_reach (options : Options) (source : String) (matched : Bool)
    (h : (parse options source).outcome = .ok matched) :
    ∃ program logged, Assembler.finish
        ⟨(parse options source).state.assembler, (parse options source).state.log⟩ =
          .ok program logged ∧
      ∀ (id : MethodId) (m : Method), program.methods[id]? = some m →
        m.InReach (program.methods.toList.map Method.heading) id := by
  have hfinish := parse_ends options source
  rw [h] at hfinish
  obtain ⟨program, logged, hfinish⟩ := hfinish (parse options source).state.log
  refine ⟨program, logged, hfinish, fun id m hm => ?_⟩
  -- ending the methods adds no operation that names a variable
  suffices hs : (parse options source).state.assembler.InReach from hs.finish hfinish id m hm
  obtain ⟨assembler, log, hshows, hparse⟩ := parse_of_items options source
  have hitems := ((slots_grammar options).items (lexemes source).length
    (lexemes source).length).keeps _ (begunState_slotted source hshows log)
  exact (hparse (Q := fun s => s.assembler.InReach)
    (hitems.mono (fun _ _ hs => hs.1.code) fun _ _ he => he)).1 matched h

/-- A pass that reports errors, with a method inside another one that uses a local of the entry
method and a parameter, and a local of the same name in each of them. -/
theorem variables_in_reach_nested :
    let parsed := parse {} "int x; void f(int a) \x7b int x; x = a; y = x;
      void g(bool b) \x7b x = 1; bool x; x = b; \x7d \x7d"
    parsed.outcome = .ok false ∧
      ∃ program logged, Assembler.finish ⟨parsed.state.assembler, parsed.state.log⟩ =
          .ok program logged ∧
        ∀ (id : MethodId) (m : Method), program.methods[id]? = some m →
          m.InReach (program.methods.toList.map Method.heading) id :=
  have houtcome := eq_ok_of_toOption (by decide +kernel)
  ⟨houtcome, variables_in_reach {} _ false houtcome⟩

end OnePass
