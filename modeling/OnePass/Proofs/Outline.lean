import OnePass.Assembler.Call
import OnePass.Proofs.Draft

/-!
# Outlines of programs

An outline is what the assembler has written so far, with a draft in place of every
method.  Each request to the assembler has a simple effect on the outline; the requests
that can be refused are the ones that speak of a label or a parameter.

## Main definitions

* `Outline` — title, drafts, and the methods that are open.
* `Assembler.Shows` — the assembler has written an outline.

## Main results

* `Assembler.onCurrent_shows` — a step on the innermost open method changes its draft.
* `Assembler.Call.emit_shows` to `Assembler.Call.declareParameter_shows` — the effect of
  each request.
* `Assembler.finish_shows` — when the program can be had.
-/

namespace OnePass

/-- What has been written of a program.  The drafts leave out of a method what only its patching
needs. -/
structure Outline where
  /-- The name of the program. -/
  title : String
  /-- The methods, in the order of their declaration. -/
  drafts : List Draft
  /-- The methods that are open, the innermost first. -/
  opened : List MethodId
  deriving DecidableEq, Repr

/-- Putting an element where it already is changes nothing. -/
theorem set_of_getElem? {α : Type} {xs : List α} {i : Nat} {x : α} (h : xs[i]? = some x) :
    xs.set i x = xs := by
  obtain ⟨hlt, rfl⟩ := List.getElem?_eq_some_iff.mp h
  exact List.set_getElem_self hlt

namespace Assembler

/-- The assembler has written an outline: its methods are the drafts, each of them in order, and the
methods it has open are those of the outline. -/
def Shows (a : Assembler) (o : Outline) : Prop :=
  ∃ methods : Array Method, a = ⟨some ⟨o.title, methods⟩, o.opened⟩ ∧
    (∀ m ∈ methods, m.Linked) ∧ methods.toList.map Method.draft = o.drafts

variable {a : Assembler} {title : String} {drafts : List Draft} {id : MethodId}
  {ids : List MethodId} {d : Draft}

/-- A step on a method that exists changes its draft, if it does so whatever method with that draft
it is made on. -/
theorem onMethod_shows {α : Type} {x : α} {d' : Draft} {opened : List MethodId}
    (step : Coding α) (h : a.Shows ⟨title, drafts, opened⟩) (hd : drafts[id]? = some d)
    (hstep : ∀ m : Method, m.Linked → m.draft = d → m.Writes step x d') :
    ∃ a', onMethod id step a = .ok x a' ∧ a'.Shows ⟨title, drafts.set id d', opened⟩ := by
  obtain ⟨methods, rfl, hlinked, rfl⟩ := h
  obtain ⟨m, hm, rfl⟩ : ∃ m, methods[id]? = some m ∧ m.draft = d := by
    simpa using hd
  obtain ⟨hlt, rfl⟩ := Array.getElem?_eq_some_iff.mp hm
  obtain ⟨m', hm', hlinked', rfl⟩ := hstep _ (hlinked _ (Array.getElem_mem hlt)) rfl
  -- the other methods are where they were, so only the changed one has to be looked at
  refine ⟨⟨some ⟨title, methods.set id m'⟩, opened⟩, ?_, methods.set id m', rfl, ?_, ?_⟩
  · rw [onMethod_of_lt hlt, hm']
  · intro n hn
    rcases Array.mem_or_eq_of_mem_set hn with hn | rfl
    · exact hlinked n hn
    · exact hlinked'
  · simp [List.map_set]

/-- A step on the innermost open method changes its draft.  This is how all requests are made that
do not say which method they are about. -/
theorem onCurrent_shows {α : Type} {x : α} {d' : Draft} (step : MethodId → Coding α)
    (h : a.Shows ⟨title, drafts, id :: ids⟩) (hd : drafts[id]? = some d)
    (hstep : ∀ m : Method, m.Linked → m.draft = d → m.Writes (step id) x d') :
    ∃ a', onCurrent step a = .ok x a' ∧ a'.Shows ⟨title, drafts.set id d', id :: ids⟩ := by
  obtain ⟨a', ha', hshows⟩ := onMethod_shows (step id) h hd hstep
  refine ⟨a', ?_, hshows⟩
  obtain ⟨methods, rfl, -⟩ := h
  exact ha'

namespace Call

theorem emit_shows (h : a.Shows ⟨title, drafts, id :: ids⟩) (hd : drafts[id]? = some d)
    (operation : Operation) :
    ∃ a', (emit operation).run a = .ok () a' ∧
      a'.Shows ⟨title, drafts.set id (d.add (.plain operation)), id :: ids⟩ :=
  onCurrent_shows _ h hd fun _ hm hmd => hmd ▸ Method.add_draft hm operation

theorem loadParameter_shows (h : a.Shows ⟨title, drafts, id :: ids⟩) (hd : drafts[id]? = some d)
    (ordinal : Nat) :
    ∃ a', (loadParameter ⟨id, ordinal⟩).run a = .ok () a' ∧
      a'.Shows ⟨title, drafts.set id (d.add (.plain (.loadArg ordinal))), id :: ids⟩ := by
  refine onCurrent_shows _ h hd fun m hm hmd => ?_
  simpa using hmd ▸ Method.add_draft hm (.loadArg ordinal)

theorem declareLocal_shows (h : a.Shows ⟨title, drafts, id :: ids⟩) (hd : drafts[id]? = some d)
    (name : String) (type : Ty) :
    ∃ a', (declareLocal name type).run a = .ok ⟨id, d.locals.length⟩ a' ∧
      a'.Shows ⟨title, drafts.set id (d.addLocal ⟨name, type⟩), id :: ids⟩ := by
  refine onCurrent_shows _ h hd fun m hm hmd => ?_
  obtain ⟨m', hm', hlinked, hdraft⟩ := Method.addLocal_draft hm ⟨name, type⟩
  refine ⟨m', ?_, hlinked, hmd ▸ hdraft⟩
  rw [← hmd]
  simp only [bind, EStateM.bind, hm']
  rfl

theorem newLabel_shows (h : a.Shows ⟨title, drafts, id :: ids⟩) (hd : drafts[id]? = some d) :
    ∃ a', newLabel.run a = .ok ⟨id, d.labels.length⟩ a' ∧
      a'.Shows ⟨title, drafts.set id d.addLabel, id :: ids⟩ := by
  refine onCurrent_shows _ h hd fun m hm hmd => ?_
  obtain ⟨m', hm', hlinked, hdraft⟩ := Method.addLabel_draft hm
  refine ⟨m', ?_, hlinked, hmd ▸ hdraft⟩
  rw [← hmd]
  simp only [bind, EStateM.bind, hm']
  rfl

theorem returnType_shows (h : a.Shows ⟨title, drafts, id :: ids⟩) (hd : drafts[id]? = some d) :
    ∃ a', returnType.run a = .ok d.returnType a' ∧ a'.Shows ⟨title, drafts, id :: ids⟩ := by
  obtain ⟨a', ha', hshows⟩ := onCurrent_shows (fun _ => return (← get).returnType) h hd
    fun m hm hmd => ⟨m, congrArg (EStateM.Result.ok · m) (congrArg Draft.returnType hmd), hm, hmd⟩
  refine ⟨a', ha', ?_⟩
  rwa [set_of_getElem? hd] at hshows

/-- A branch to a label of the innermost open method.  A label of another method would be
refused. -/
theorem jump_shows (h : a.Shows ⟨title, drafts, id :: ids⟩) (hd : drafts[id]? = some d)
    {branch : Target → Instruction} (hbranch : ∀ t, (branch t).target? = some t) {l : Nat}
    (hl : l < d.labels.length) :
    ∃ a', Assembler.jump branch ⟨id, l⟩ a = .ok () a' ∧
      a'.Shows ⟨title, drafts.set id (d.jump branch l), id :: ids⟩ := by
  refine onCurrent_shows _ h hd fun m hm hmd => ?_
  subst hmd
  simpa using Method.jump_draft hm hbranch hl

theorem branch_shows (h : a.Shows ⟨title, drafts, id :: ids⟩) (hd : drafts[id]? = some d)
    {l : Nat} (hl : l < d.labels.length) :
    ∃ a', (branch ⟨id, l⟩).run a = .ok () a' ∧
      a'.Shows ⟨title, drafts.set id (d.jump .branch l), id :: ids⟩ :=
  jump_shows h hd (fun _ => rfl) hl

theorem branchIfFalse_shows (h : a.Shows ⟨title, drafts, id :: ids⟩) (hd : drafts[id]? = some d)
    {l : Nat} (hl : l < d.labels.length) :
    ∃ a', (branchIfFalse ⟨id, l⟩).run a = .ok () a' ∧
      a'.Shows ⟨title, drafts.set id (d.jump .branchIfFalse l), id :: ids⟩ :=
  jump_shows h hd (fun _ => rfl) hl

theorem bindLabel_shows (h : a.Shows ⟨title, drafts, id :: ids⟩) (hd : drafts[id]? = some d)
    {l : Nat} (hl : d.labels[l]? = some none) :
    ∃ a', (bindLabel ⟨id, l⟩).run a = .ok d.code.length a' ∧
      a'.Shows ⟨title, drafts.set id (d.bindLabel l), id :: ids⟩ := by
  refine onCurrent_shows _ h hd fun m hm hmd => ?_
  subst hmd
  simpa using Method.bindLabel_draft hm hl

/-- A method in which every label has its offset can be ended.  The one around it is open again
then. -/
theorem endMethod_shows (h : a.Shows ⟨title, drafts, id :: ids⟩) (hd : drafts[id]? = some d)
    (hl : ∀ label ∈ d.labels, label.isSome) :
    ∃ closed a', endMethod.run a = .ok closed a' ∧
      a'.Shows ⟨title, drafts.set id d.close, ids⟩ := by
  obtain ⟨a', ha', methods, rfl, hlinked, hdrafts⟩ := onCurrent_shows (fun _ => Method.close) h hd
    fun m hm hmd => hmd ▸ Method.close_draft hm (hmd ▸ hl)
  refine ⟨⟨d.name, d.close.code.length⟩, ⟨some ⟨title, methods⟩, ids⟩, ?_, methods, rfl, hlinked,
    hdrafts⟩
  -- once the method is closed, it is only taken from the open ones
  show Assembler.endMethod a = _
  simp only [Assembler.endMethod, bind, EStateM.bind, ha']
  rfl

theorem declareMethod_shows {opened : List MethodId} (h : a.Shows ⟨title, drafts, opened⟩)
    (name : String) (type : Ty) (parameters : List Ty) :
    ∃ a', (declareMethod name type parameters).run a = .ok drafts.length a' ∧
      a'.Shows ⟨title, drafts ++ [.new name type parameters], drafts.length :: opened⟩ := by
  obtain ⟨methods, rfl, hlinked, rfl⟩ := h
  -- the new method is put behind the others and opened; nothing has been written into it yet
  refine ⟨_, by rw [List.length_map, Array.length_toList]; rfl, methods.push
    { name, returnType := type, parameters := (parameters.map fun type => ⟨type, none⟩).toArray },
    by simp, ?_, by simp [Method.draft, Draft.new]⟩
  intro m hm
  rcases Array.mem_push.mp hm with hm | rfl
  · exact hlinked m hm
  · exact Method.Linked.new _ _ _

theorem declareParameter_shows {opened : List MethodId} (h : a.Shows ⟨title, drafts, opened⟩)
    (hd : drafts[id]? = some d) (name : String) {index : Nat} {type : Ty}
    (htype : d.parameters[index]?.map (·.type) = some type) :
    ∃ a', (declareParameter id name (index + 1) type).run a = .ok ⟨id, index + 1⟩ a' ∧
      a'.Shows ⟨title, drafts.set id (d.nameParameter name index type), opened⟩ := by
  obtain ⟨a', ha', hshows⟩ := onMethod_shows (Method.nameParameter name (index + 1) type) h hd
    fun m hm hmd => hmd ▸ Method.nameParameter_draft hm (hmd ▸ htype)
  refine ⟨a', ?_, hshows⟩
  show Assembler.declareParameter id name (index + 1) type a = _
  simp only [Assembler.declareParameter, bind, EStateM.bind, ha']
  rfl

theorem beginProgram_shows (a : Assembler) (name : String) :
    ∃ a', (beginProgram name).run a = .ok 0 a' ∧
      a'.Shows ⟨name, [.new "main" .void []], [0]⟩ := by
  have h : Assembler.Shows ⟨some ⟨name, #[]⟩, []⟩ ⟨name, [], []⟩ := ⟨#[], rfl, by simp, rfl⟩
  exact declareMethod_shows h "main" .void []

/-- A request that is granted is also granted when it is logged, with the same answer. -/
theorem perform_ok {c : Call} {x : c.Answer} {a a' : Assembler} (h : c.run a = .ok x a')
    (log : Array Event) : ∃ log', c.perform ⟨a, log⟩ = .ok x ⟨a', log'⟩ := by
  refine ⟨(log.appendList c.announcement).appendList (c.events x), ?_⟩
  simp only [perform, bind, EStateM.bind, Logged.record, Logged.silently, h]
  rfl

end Call

/-- A program of which only one method is open, and all labels of that one have their offsets, can
be had.  The method is ended on the way. -/
theorem finish_shows (h : a.Shows ⟨title, drafts, [id]⟩) (hd : drafts[id]? = some d)
    (hl : ∀ label ∈ d.labels, label.isSome) (log : Array Event) :
    ∃ methods logged, finish ⟨a, log⟩ = .ok ⟨title, methods⟩ logged ∧
      (∀ m ∈ methods, m.Linked) ∧ methods.toList.map Method.draft = drafts.set id d.close := by
  -- as many methods are ended as are open, which is one
  have hopened : a.opened = [id] := by
    obtain ⟨methods, rfl, -⟩ := h
    rfl
  obtain ⟨closed, a', ha', methods, rfl, hlinked, hdrafts⟩ := Call.endMethod_shows h hd hl
  obtain ⟨log', hlog'⟩ := Call.perform_ok ha' log
  refine ⟨methods, ⟨⟨some ⟨title, methods⟩, []⟩, log'⟩, ?_, hlinked, hdrafts⟩
  have hend : endMethods 1 ⟨a, log⟩ = .ok () ⟨⟨some ⟨title, methods⟩, []⟩, log'⟩ := by
    simp only [endMethods, bind, EStateM.bind, hlog']
    rfl
  rw [← List.length_singleton (a := id), ← hopened] at hend
  unfold finish
  show EStateM.bind (endMethods a.opened.length) _ ⟨a, log⟩ = _
  unfold EStateM.bind
  rw [hend]
  rfl

end Assembler

end OnePass
