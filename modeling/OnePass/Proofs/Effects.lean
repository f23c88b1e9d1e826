import OnePass.Proofs.Outline

/-!
# What requests do

The assembler can be asked for anything in any order, with numbers that are made up, and
it may refuse.  A request that is refused changes nothing.  A request that is granted does
one of three things: it opens a new method, it names a parameter of some method, or it
writes on the innermost open method, and then perhaps ends that.

## Main definitions

* `Fair` — a step succeeds, or is refused and changes nothing.
* `Method.body` — what is written in a method: its code, its locals and its labels.
* `Draft.Grows` — what a request writes on the draft of the innermost open method.
* `Assembler.Effect` — what a request does that is granted.

## Main results

* `Assembler.Call.effect` — **every request has its effect, or is refused**.
-/

namespace OnePass

/-! ### Steps that succeed or change nothing -/

/-- A step succeeds in a given way, or it is refused and changes nothing.  It never finds a
waiting instruction that is no branch. -/
def Fair {σ α : Type} (step : EStateM Fault σ α) (s : σ) (R : α → σ → Prop) : Prop :=
  (∃ x s', step s = .ok x s' ∧ R x s') ∨ ∃ f, step s = .error f s ∧ f ≠ .notABranch

namespace Fair

variable {σ α β : Type} {step : EStateM Fault σ α} {s : σ} {R R' : α → σ → Prop}

theorem mono (h : Fair step s R) (hR : ∀ x s', R x s' → R' x s') : Fair step s R' := by
  rcases h with ⟨x, s', hstep, hx⟩ | herror
  · exact .inl ⟨x, s', hstep, hR x s' hx⟩
  · exact .inr herror

theorem of_eq {step' : EStateM Fault σ α} (h : Fair step s R) (heq : step' s = step s) :
    Fair step' s R := by
  unfold Fair
  rwa [heq]

/-- The answer of a step is turned into another one, and a refusal stays one. -/
theorem map (h : Fair step s R) (g : α → β) :
    Fair (step >>= fun x => pure (g x)) s fun y s' => ∃ x, y = g x ∧ R x s' := by
  rcases h with ⟨x, s', hstep, hx⟩ | ⟨f, hstep, hf⟩
  · refine .inl ⟨g x, s', ?_, x, rfl, hx⟩
    simp only [bind, EStateM.bind, hstep]
    rfl
  · refine .inr ⟨f, ?_, hf⟩
    simp only [bind, EStateM.bind, hstep]

end Fair

/-! ### Writing on a method -/

/-- What a request that is granted answers and writes on the draft of the innermost open
method, the one with the number `id`. -/
inductive Draft.Grows (id : MethodId) : (c : Assembler.Call) → c.Answer → Draft → Draft → Prop
  | emit (operation : Operation) (d : Draft) :
      Grows id (.emit operation) () d (d.add (.plain operation))
  | loadParameter (ordinal : Nat) (d : Draft) :
      Grows id (.loadParameter ⟨id, ordinal⟩) () d (d.add (.plain (.loadArg ordinal)))
  | declareLocal (name : String) (type : Ty) (d : Draft) :
      Grows id (.declareLocal name type) ⟨id, d.locals.length⟩ d (d.addLocal ⟨name, type⟩)
  | returnType (d : Draft) : Grows id .returnType d.returnType d d
  | newLabel (d : Draft) : Grows id .newLabel ⟨id, d.labels.length⟩ d d.addLabel
  | branch {l : Nat} {d : Draft} (hl : l < d.labels.length) :
      Grows id (.branch ⟨id, l⟩) () d (d.jump .branch l)
  | branchIfFalse {l : Nat} {d : Draft} (hl : l < d.labels.length) :
      Grows id (.branchIfFalse ⟨id, l⟩) () d (d.jump .branchIfFalse l)
  | bindLabel {l : Nat} {d : Draft} (hl : d.labels[l]? = some none) :
      Grows id (.bindLabel ⟨id, l⟩) d.code.length d (d.bindLabel l)
  | endMethod {d : Draft} (hl : ∀ label ∈ d.labels, label.isSome) :
      Grows id .endMethod ⟨d.name, d.close.code.length⟩ d d.close

namespace Method

/-- What is written in a method.  Its head is not, as it is there from the beginning. -/
structure Body where
  code : Array Instruction
  locals : Array Variable
  labels : Array LabelState
  deriving DecidableEq, Repr

/-- The code, the locals and the labels of a method. -/
def body (m : Method) : Body := ⟨m.code, m.locals, m.labels⟩

/-- A method of which only the head has been written. -/
def new (name : String) (returnType : Ty) (types : List Ty) : Method :=
  { name, returnType, parameters := (types.map fun type => ⟨type, none⟩).toArray }

/-- A linked method that a request has left in place of another one, with what it has written. -/
structure Grows (id : MethodId) (c : Assembler.Call) (x : c.Answer) (m m' : Method) : Prop where
  linked : m'.Linked
  draft : m.draft.Grows id c x m'.draft

variable {m m' : Method} {id : MethodId}

/-- Whether a method is linked shows in its body: names and parameters have no part in it. -/
theorem Linked.of_body (hm : m.Linked) (hbody : m'.body = m.body) : m'.Linked := by
  obtain ⟨hcode, -, hlabels⟩ := Body.mk.inj hbody
  constructor
  · rw [hcode, hlabels]
    exact hm.waiting
  · rw [hcode, hlabels]
    exact hm.pending
  · rw [hcode, hlabels]
    exact hm.bound

theorem Writes.fair {α : Type} {step : Coding α} {a : α} {d : Draft} (h : m.Writes step a d) :
    Fair step m fun x m' => x = a ∧ m'.Linked ∧ m'.draft = d := by
  obtain ⟨m', hstep, hlinked, hdraft⟩ := h
  exact .inl ⟨a, m', hstep, rfl, hlinked, hdraft⟩

/-- A step that writes what a request asks for is granted, so it is fair. -/
theorem Writes.grows {c : Assembler.Call} {step : Coding c.Answer} {x : c.Answer} {d : Draft}
    (h : m.Writes step x d) (hgrows : m.draft.Grows id c x d) : Fair step m (m.Grows id c · ·) := by
  refine h.fair.mono ?_
  rintro _ m' ⟨rfl, hlinked, rfl⟩
  exact ⟨hlinked, hgrows⟩

/-- A branch is added if the label exists, and otherwise the request is refused. -/
theorem jump_fair (hm : m.Linked) {branch : Target → Instruction}
    (hbranch : Instruction.IsBranch branch) (l : Nat) :
    Fair (jump branch l) m fun _ m' =>
      l < m.draft.labels.length ∧ m'.Linked ∧ m'.draft = m.draft.jump branch l := by
  have htarget (t : Target) : (branch t).target? = some t := by
    rcases hbranch with rfl | rfl <;> rfl
  by_cases hl : l < m.draft.labels.length
  · exact (jump_draft hm htarget hl).fair.mono fun _ _ h => ⟨hl, h.2⟩
  · have hnone : m.labels[l]? = none := by
      rw [Array.getElem?_eq_none_iff]
      simpa using hl
    exact .inr ⟨.unknownLabel, by simp only [jump, hnone], by simp⟩

/-- A label gets the offset that is answered if it exists and has none.  It cannot get a second
one. -/
theorem bindLabel_fair (hm : m.Linked) (l : Nat) :
    Fair (bindLabel l) m (m.Grows id (.bindLabel ⟨id, l⟩) · ·) := by
  cases hstate : m.labels[l]? with
  | none => exact .inr ⟨.unknownLabel, by simp only [bindLabel, hstate], by simp⟩
  | some state =>
    cases state with
    | bound previous =>
      exact .inr ⟨.boundTwice l previous, by simp only [bindLabel, hstate], by simp⟩
    -- only a label that waits gets an offset
    | waiting branches =>
      have hnone : m.draft.labels[l]? = some none := by
        rw [draft_labels_getElem?, hstate]
        rfl
      exact (bindLabel_draft hm hnone).grows (c := .bindLabel ⟨id, l⟩) (.bindLabel hnone)

/-- A method is ended if all of its labels have offsets.  Otherwise the first label without one is
named. -/
theorem close_fair (hm : m.Linked) : Fair close m (m.Grows id .endMethod · ·) := by
  cases hfind : m.labels.findIdx? (·.offset?.isNone) with
  | some l => exact .inr ⟨.unboundLabel l m.name, by simp only [close, hfind], by simp⟩
  | none =>
    have hl : ∀ label ∈ m.draft.labels, label.isSome := by
      intro label hlabel
      obtain ⟨state, hstate, rfl⟩ := List.mem_map.mp hlabel
      have hnone := Array.findIdx?_eq_none_iff.mp hfind _ (Array.mem_toList_iff.mp hstate)
      rwa [Option.isNone_eq_false_iff] at hnone
    exact (close_draft hm hl).grows (c := .endMethod) (.endMethod hl)

/-- A parameter gets a name, and what is written in the method stays as it is.  The first parameter
has the number one. -/
theorem nameParameter_fair (m : Method) (name : String) (ordinal : Nat) (type : Ty) :
    Fair (nameParameter name ordinal type) m fun _ m' => m'.body = m.body := by
  cases ordinal with
  | zero => exact .inr ⟨.reservedOrdinal, rfl, by simp⟩
  | succ index =>
    by_cases htype : m.parameters[index]?.map (·.type) = some type
    · exact .inl ⟨(), { m with parameters := m.parameters.setIfInBounds index ⟨type, some name⟩ },
        by simp [nameParameter, htype], rfl⟩
    · exact .inr ⟨.parameterMismatch name (index + 1) m.name, by simp [nameParameter, htype],
        by simp⟩

end Method

/-! ### Writing on a program -/

namespace Assembler

/-- The methods written so far. -/
def methods (a : Assembler) : Array Method := (a.program.map Program.methods).getD #[]

/-- The assembler with another method in a place, and the same methods open. -/
def put (a : Assembler) (id : MethodId) (m : Method) : Assembler :=
  { a with program := a.program.map fun p => { p with methods := p.methods.setIfInBounds id m } }

variable {a : Assembler} {id : MethodId} {m : Method}

theorem methods_put (a : Assembler) (id : MethodId) (m : Method) :
    (a.put id m).methods = a.methods.setIfInBounds id m := by
  obtain ⟨_ | p, opened⟩ := a <;> simp [put, methods]

@[simp] theorem size_methods_put (a : Assembler) (id : MethodId) (m : Method) :
    (a.put id m).methods.size = a.methods.size := by
  rw [methods_put, Array.size_setIfInBounds]

@[simp] theorem opened_put (a : Assembler) (id : MethodId) (m : Method) :
    (a.put id m).opened = a.opened := rfl

theorem getElem?_put (hm : a.methods[id]? = some m) (m' : Method) (k : MethodId) :
    (a.put id m').methods[k]? = if k = id then some m' else a.methods[k]? := by
  have hlt := (Array.getElem?_eq_some_iff.mp hm).1
  rw [methods_put, Array.getElem?_setIfInBounds]
  by_cases hk : id = k
  · simp [hk, hk ▸ hlt]
  · simp [hk, Ne.symm hk]

/-- A step on a method changes that method, or is refused.  A number that stands for no method is
refused, too. -/
theorem onMethod_fair {α : Type} (id : MethodId) {step : Coding α} {R : Method → α → Method → Prop}
    (hstep : ∀ m, a.methods[id]? = some m → Fair step m (R m)) :
    Fair (onMethod id step) a fun x a' =>
      ∃ m m', a.methods[id]? = some m ∧ R m x m' ∧ a' = a.put id m' := by
  obtain ⟨_ | ⟨title, methods⟩, opened⟩ := a
  · exact .inr ⟨.noProgram, rfl, by simp⟩
  by_cases hlt : id < methods.size
  · have hm : Assembler.methods ⟨some ⟨title, methods⟩, opened⟩ = methods := rfl
    have hget : methods[id]? = some methods[id] := Array.getElem?_eq_getElem hlt
    rcases hstep methods[id] hget with ⟨x, m', hok, hR⟩ | ⟨f, herror, hf⟩
    · refine .inl ⟨x, ⟨some ⟨title, methods.set id m'⟩, opened⟩, ?_, methods[id], m', hget, hR, ?_⟩
      · rw [onMethod_of_lt hlt, hok]
      · simp [put, Array.setIfInBounds, hlt]
    · -- the method is put back as it was
      refine .inr ⟨f, ?_, hf⟩
      rw [onMethod_of_lt hlt, herror]
      simp
  · exact .inr ⟨.unknownMethod, by rw [onMethod, dif_neg hlt], by simp⟩

/-- A step on the innermost open method changes that method, or is refused, as it is if none is
open. -/
theorem onCurrent_fair {α : Type} (step : MethodId → Coding α)
    {R : MethodId → Method → α → Method → Prop}
    (hstep : ∀ id rest m, a.opened = id :: rest → a.methods[id]? = some m →
      Fair (step id) m (R id m)) :
    Fair (onCurrent step) a fun x a' => ∃ id rest m m', a.opened = id :: rest ∧
      a.methods[id]? = some m ∧ R id m x m' ∧ a' = a.put id m' := by
  cases hopened : a.opened with
  | nil => exact .inr ⟨.noOpenMethod, by simp only [onCurrent, hopened], by simp⟩
  | cons id rest =>
    have heq : onCurrent step a = onMethod id (step id) a := by simp only [onCurrent, hopened]
    refine ((onMethod_fair id fun m hm => hstep id rest m hopened hm).mono ?_).of_eq heq
    rintro x _ ⟨m, m', hm, hR, rfl⟩
    exact ⟨id, rest, m, m', rfl, hm, hR, rfl⟩

/-! ### Requests -/

/-- What a request that is granted answers, and where it leaves the assembler `a`.  Starting a
program is left out, since nothing is kept then. -/
inductive Effect (a : Assembler) : (c : Call) → c.Answer → Assembler → Prop
  | opens {a' : Assembler} (name : String) (type : Ty) (parameters : List Ty)
      (hmethods : a'.methods = a.methods.push (Method.new name type parameters))
      (hopened : a'.opened = a.methods.size :: a.opened) :
      Effect a (.declareMethod name type parameters) a.methods.size a'
  | names {id : MethodId} {m m' : Method} (name : String) (ordinal : Nat) (type : Ty)
      (hm : a.methods[id]? = some m) (hbody : m'.body = m.body) :
      Effect a (.declareParameter id name ordinal type) ⟨id, ordinal⟩ (a.put id m')
  | writes {c : Call} {x : c.Answer} {id : MethodId} {rest : List MethodId} {m m' : Method}
      (hc : c ≠ .endMethod) (hopened : a.opened = id :: rest) (hm : a.methods[id]? = some m)
      (hgrows : m.Grows id c x m') : Effect a c x (a.put id m')
  | ends {closed : Method.Closed} {id : MethodId} {rest : List MethodId} {m m' : Method}
      (hopened : a.opened = id :: rest) (hm : a.methods[id]? = some m)
      (hgrows : m.Grows id .endMethod closed m') :
      Effect a .endMethod closed ⟨(a.put id m').program, rest⟩

/-- Whether a request starts a program, in place of whatever was there. -/
def Call.begins : Call → Bool
  | .beginProgram _ => true
  | _ => false

section

variable (ha : ∀ m ∈ a.methods, m.Linked)
include ha

/-- Steps that write on the innermost open method, which is linked like all others. -/
theorem onCurrent_effect {c : Call} {step : MethodId → Coding c.Answer} (hc : c ≠ .endMethod)
    (hstep : ∀ id m, m.Linked → Fair (step id) m (m.Grows id c · ·)) :
    Fair (onCurrent step) a (a.Effect c · ·) := by
  refine (onCurrent_fair step fun id _ m _ hm =>
    hstep id m (ha m (Array.mem_of_getElem? hm))).mono ?_
  rintro x _ ⟨id, rest, m, m', hopened, hm, hgrows, rfl⟩
  exact .writes hc hopened hm hgrows

/-- Steps on a label, which the innermost open method has to own.  A label of another method is
refused. -/
theorem onLabel_effect {c : Call} {label : Label} {step : Nat → Coding c.Answer}
    (hc : c ≠ .endMethod) (hstep : ∀ m, m.Linked →
      Fair (step label.index) m (m.Grows label.method c · ·)) :
    Fair (onLabel label step) a (a.Effect c · ·) := by
  refine onCurrent_effect ha hc fun id m hm => ?_
  split
  · next heq =>
    subst heq
    exact hstep m hm
  · exact .inr ⟨.foreignLabel label, rfl, by simp⟩

theorem endMethod_effect : Fair endMethod a (a.Effect .endMethod · ·) := by
  -- ending a method writes on it first, and then takes it from the open ones
  have hclose := onCurrent_fair (a := a) (fun _ => Method.close)
    (R := fun id m closed m' => m.Grows id .endMethod closed m') fun _ _ m _ hm =>
      Method.close_fair (ha m (Array.mem_of_getElem? hm))
  rcases hclose with ⟨closed, _, hok, id, rest, m, m', hopened, hm, hgrows, rfl⟩ | ⟨f, herror, hf⟩
  · refine .inl ⟨closed, ⟨(a.put id m').program, rest⟩, ?_, .ends hopened hm hgrows⟩
    have htail : (a.put id m').opened.tail = rest := congrArg List.tail hopened
    simp only [endMethod, bind, EStateM.bind, hok]
    rw [← htail]
    rfl
  · refine .inr ⟨f, ?_, hf⟩
    simp only [endMethod, bind, EStateM.bind, herror]

/-- **Every request has its effect, or is refused.**  This holds for any request to an assembler of
linked methods, whatever numbers it names. -/
theorem Call.effect {c : Call} (hc : c.begins = false) : Fair c.run a (a.Effect c · ·) := by
  cases c with
  | beginProgram name => cases hc
  | declareMethod name type parameters =>
    -- without a program there are no methods either, so the first one is declared
    obtain ⟨_ | p, opened⟩ := a
    · exact .inl ⟨_, _, rfl, .opens name type parameters rfl rfl⟩
    · exact .inl ⟨_, _, rfl, .opens name type parameters rfl rfl⟩
  | declareParameter method name ordinal type =>
    have hname := onMethod_fair (a := a) method fun m _ => m.nameParameter_fair name ordinal type
    refine (hname.map fun _ => (⟨method, ordinal⟩ : ParameterSlot)).mono ?_
    rintro _ _ ⟨-, rfl, m, m', hm, hbody, rfl⟩
    exact .names name ordinal type hm hbody
  | endMethod => exact endMethod_effect ha
  | declareLocal name type =>
    refine onCurrent_effect ha (by simp) fun id m hm => ?_
    refine ((Method.addLocal_draft hm ⟨name, type⟩).fair.map _).mono ?_
    rintro _ m' ⟨-, rfl, rfl, hlinked, hdraft⟩
    exact ⟨hlinked, hdraft ▸ .declareLocal name type m.draft⟩
  | returnType =>
    exact onCurrent_effect ha (by simp) fun id m hm =>
      .inl ⟨m.returnType, m, rfl, hm, .returnType m.draft⟩
  | newLabel =>
    refine onCurrent_effect ha (by simp) fun id m hm => ?_
    refine ((Method.addLabel_draft hm).fair.map _).mono ?_
    rintro _ m' ⟨-, rfl, rfl, hlinked, hdraft⟩
    exact ⟨hlinked, hdraft ▸ .newLabel m.draft⟩
  | bindLabel label =>
    exact onLabel_effect ha (by simp) fun m hm => Method.bindLabel_fair hm label.index
  | branch label =>
    refine onLabel_effect ha (by simp) fun m hm => ?_
    refine (Method.jump_fair hm (.inl rfl) label.index).mono fun _ m' h => ⟨h.2.1, ?_⟩
    rw [h.2.2]
    exact .branch h.1
  | branchIfFalse label =>
    refine onLabel_effect ha (by simp) fun m hm => ?_
    refine (Method.jump_fair hm (.inr rfl) label.index).mono fun _ m' h => ⟨h.2.1, ?_⟩
    rw [h.2.2]
    exact .branchIfFalse h.1
  | loadParameter slot =>
    refine onCurrent_effect ha (by simp) fun id m hm => ?_
    split
    · next heq =>
      subst heq
      exact (Method.add_draft hm _).grows (c := .loadParameter slot) (.loadParameter slot.ordinal _)
    · exact .inr ⟨.foreignParameter slot, rfl, by simp⟩
  | emit operation =>
    exact onCurrent_effect ha (by simp) fun id m hm =>
      (Method.add_draft hm operation).grows (c := .emit operation) (.emit operation _)

end

end Assembler

end OnePass
