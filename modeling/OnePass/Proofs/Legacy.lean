import OnePass.Proofs.Translation
import OnePass.Proofs.Unambiguous

/-!
# The older typing

With the older typing the name of a local variable is of type `bool` or of no known type,
whatever type it was declared with.  A source that compiles with both typings is read as the
same tree, and the types show in its code in two places only: a conversion names the type it
converts from, and a plus sign joins strings only where its left operand is known to be one.

## Main definitions

* `Ty.Blurred` — a type with the older typing, beside the declared one.
* `Operation.Retyped`, `Method.Retyped` — code with the older typing, beside the code with the
  declared types.
* `Site.older` — a place of the source, with the older typing.

## Main results

* `Expr.retyped_of_lower?` — what the older typing does to expressions.
* `Items.retyped_of_lower?` — what it does to statement lists.
* `Writes.unique` — a source is read as one tree.
* `compile_legacy` — **the older typing changes types only**.
-/

namespace OnePass

/-! ### Types -/

/-- What the older typing makes of a type: it may be lost, or be taken for `bool`. -/
def Ty.Blurred (ty old : Ty) : Prop := old = ty ∨ old = .bool ∨ old = .unknown

namespace Ty

/-- A known type of a binary operation is that of both operands, with either typing. -/
theorem eq_of_binary? {operator : Symbol} {left right ty : Ty}
    (h : binary? operator left right = some ty) (hne : ty ≠ .unknown) : left = ty ∧ right = ty := by
  unfold binary? at h
  split at h
  · exact absurd (Option.some.inj h).symm hne
  · split at h <;> cases h <;> exact ⟨rfl, rfl⟩

theorem Blurred.eq {ty old : Ty} (h : ty.Blurred old) (hbool : old ≠ .bool)
    (hunknown : old ≠ .unknown) : ty = old := by
  obtain h | h | h := h
  · exact h.symm
  · exact absurd h hbool
  · exact absurd h hunknown

theorem Blurred.operate? {operator : Symbol} {left right ty left' right' old : Ty}
    (hleft : left.Blurred left') (hright : right.Blurred right')
    (h : Ty.operate? operator left right = some ty)
    (h' : Ty.operate? operator left' right' = some old) : ty.Blurred old := by
  by_cases hbool : old = .bool
  · exact .inr (.inl hbool)
  by_cases hunknown : old = .unknown
  · exact .inr (.inr hunknown)
  -- the operands are of the same known type then, so nothing was lost of them
  obtain ⟨rfl, rfl⟩ := eq_of_binary? (operate?_eq_some.mp h').2 hunknown
  rw [hleft.eq hbool hunknown, hright.eq hbool hunknown, h'] at h
  exact .inl (Option.some.inj h)

theorem Blurred.unary? {operand ty operand' old : Ty} (hoperand : operand.Blurred operand')
    (h : Ty.unary? operand = some ty) (h' : Ty.unary? operand' = some old) : ty.Blurred old := by
  -- only numbers have a sign, as far as their type is known
  cases operand' with
  | int =>
    obtain rfl := hoperand.eq (by decide) (by decide)
    exact .inl (Option.some.inj (h'.symm.trans h))
  | unknown => exact .inr (.inr (Option.some.inj h').symm)
  | _ => cases h'

end Ty

/-! ### Code -/

/-- What the older typing makes of an operation.  Each takes and leaves as many values as before. -/
inductive Operation.Retyped : Operation → Operation → Prop
  | same (o : Operation) : Retyped o o
  /-- A conversion from another type. -/
  | convert (target : Ty) {source source' : Ty} (h : source.Blurred source') :
    Retyped (.convert target source) (.convert target source')
  /-- An addition where strings are joined. -/
  | concat : Retyped .concat (.additive .add)

/-- What the older typing makes of an instruction.  Branches go where they went. -/
inductive Instruction.Retyped : Instruction → Instruction → Prop
  | plain {o o' : Operation} (h : o.Retyped o') : Retyped (.plain o) (.plain o')
  | branch (target : Target) : Retyped (.branch target) (.branch target)
  | branchIfFalse (target : Target) : Retyped (.branchIfFalse target) (.branchIfFalse target)

/-- What the older typing makes of a method: all is the same but the code, which differs in
operations of the same effect on the stack. -/
structure Method.Retyped (m m' : Method) : Prop where
  name : m.name = m'.name
  returnType : m.returnType = m'.returnType
  parameters : m.parameters = m'.parameters
  locals : m.locals = m'.locals
  labels : m.labels = m'.labels
  code : List.Forall₂ Instruction.Retyped m.code.toList m'.code.toList

/-- What the older typing makes of a fragment.  It has the same names, so what follows it is read in
the same way. -/
structure Fragment.Retyped (f f' : Fragment) : Prop where
  names : f.names = f'.names
  locals : f.locals = f'.locals
  code : List.Forall₂ Instruction.Retyped f.code f'.code
  labels : f.labels = f'.labels
  methods : List.Forall₂ Method.Retyped f.methods f'.methods

theorem Operation.retyped_refl (operations : List Operation) :
    List.Forall₂ Operation.Retyped operations operations :=
  List.forall₂_same.mpr fun o _ => .same o

namespace Fragment.Retyped

theorem append {f f' g g' : Fragment} (hf : f.Retyped f') (hg : g.Retyped g') :
    (f ++ g).Retyped (f' ++ g') where
  names := congrArg₂ (· ++ ·) hf.names hg.names
  locals := congrArg₂ (· ++ ·) hf.locals hg.locals
  code := List.rel_append hf.code hg.code
  labels := congrArg₂ (· ++ ·) hf.labels hg.labels
  methods := List.rel_append hf.methods hg.methods

theorem empty : Fragment.Retyped {} {} := ⟨rfl, rfl, .nil, rfl, .nil⟩

theorem plainCode {operations operations' : List Operation}
    (h : List.Forall₂ Operation.Retyped operations operations') :
    List.Forall₂ Instruction.Retyped (operations.map .plain) (operations'.map .plain) :=
  List.forall₂_map_left_iff.mpr (List.forall₂_map_right_iff.mpr (h.imp fun _ _ ho => .plain ho))

theorem plain {operations operations' : List Operation}
    (h : List.Forall₂ Operation.Retyped operations operations') :
    (Fragment.plain operations).Retyped (.plain operations') :=
  ⟨rfl, rfl, plainCode h, rfl, .nil⟩

theorem jump {operations operations' : List Operation}
    (h : List.Forall₂ Operation.Retyped operations operations') {i i' : Instruction}
    (hi : i.Retyped i') (labels : List Nat) :
    (Fragment.jump operations i labels).Retyped (.jump operations' i' labels) :=
  ⟨rfl, rfl, List.rel_append (plainCode h) (.cons hi .nil), rfl, .nil⟩

theorem getLast?_eq_ret_iff {code code' : List Instruction}
    (h : List.Forall₂ Instruction.Retyped code code') :
    code.getLast? = some (.plain .ret) ↔ code'.getLast? = some (.plain .ret) := by
  -- a return is the same with both typings, so the last instruction is one in both
  have hret {i i' : Instruction} (hi : i.Retyped i') : i = .plain .ret ↔ i' = .plain .ret := by
    cases hi with
    | plain ho => cases ho <;> simp
    | branch target => rfl
    | branchIfFalse target => rfl
  have hreverse := List.forall₂_reverse_iff.mpr h
  rw [List.getLast?_eq_head?_reverse, List.getLast?_eq_head?_reverse]
  generalize code.reverse = last, code'.reverse = last' at hreverse
  cases hreverse with
  | nil => rfl
  | cons hi _ => simp [hret hi]

/-- A return is appended in both cases or in none, as the code ends in one in both. -/
theorem closedCode {f f' : Fragment} (h : f.Retyped f') :
    List.Forall₂ Instruction.Retyped f.closedCode f'.closedCode := by
  unfold Fragment.closedCode
  by_cases hret : f.code.getLast? = some (.plain .ret)
  · rw [if_pos hret, if_pos ((getLast?_eq_ret_iff h.code).mp hret)]
    exact h.code
  · rw [if_neg hret, if_neg (mt (getLast?_eq_ret_iff h.code).mpr hret)]
    exact List.rel_append h.code (.cons (.plain (.same .ret)) .nil)

theorem method {f f' : Fragment} (h : f.Retyped f') (name : String) (returnType : Ty)
    (parameters : List Declarator) :
    (f.method name returnType parameters).Retyped (f'.method name returnType parameters) where
  name := rfl
  returnType := rfl
  parameters := rfl
  locals := congrArg List.toArray h.locals
  labels := congrArg (fun labels => (labels.map LabelState.bound).toArray) h.labels
  code := h.closedCode

theorem declaration {f f' : Fragment} (h : f.Retyped f') (name : String) (returnType : Ty)
    (parameters : List Declarator) : (f.declaration name returnType parameters).Retyped
      (f'.declaration name returnType parameters) :=
  ⟨rfl, rfl, .nil, rfl, .cons (h.method name returnType parameters) h.methods⟩

end Fragment.Retyped

/-! ### Sites -/

namespace Site

/-- The same place, with the older typing. -/
def older (σ : Site) : Site := { σ with options := { σ.options with typing := .legacy } }

variable {σ : Site}

theorem older_past {f f' : Fragment} (h : f.Retyped f') : (σ.past f).older = σ.older.past f' := by
  have hmethods := h.methods.length_eq
  have hcode := h.code.length_eq
  simp only [older, past, declare, h.names, h.locals, hmethods, hcode]

/-- A name that can be loaded with both typings is loaded in the same way, though its type may be
lost. -/
theorem load?_older {x : String} {ty old : Ty} {operation operation' : Operation}
    (h : σ.load? x = some (ty, operation)) (h' : σ.older.load? x = some (old, operation')) :
    ty.Blurred old ∧ operation = operation' := by
  have hfind : σ.older.find? x = σ.find? x := rfl
  unfold load? at h h'
  rw [hfind] at h'
  cases hb : σ.find? x with
  | none => simp [hb] at h
  | some b =>
    rw [hb] at h h'
    cases b with
    | «variable» declared slot =>
      simp only [Option.ite_none_right_eq_some, Option.some.injEq, Prod.mk.injEq] at h h'
      obtain ⟨-, -, rfl⟩ := h
      obtain ⟨-, rfl, rfl⟩ := h'
      -- a local variable is of type `bool` or of no known type, whatever it was declared with
      refine ⟨.inr ?_, rfl⟩
      have htype : σ.older.variableType x declared =
        if σ.declaredHere x then .bool else .unknown := rfl
      rw [htype]
      split <;> simp
    | parameter declared slot =>
      simp only [Option.ite_none_right_eq_some, Option.some.injEq, Prod.mk.injEq] at h h'
      obtain ⟨-, rfl, rfl⟩ := h
      obtain ⟨-, rfl, rfl⟩ := h'
      exact ⟨.inl rfl, rfl⟩
    | inert => cases h

section

variable {condition condition' : List Operation}
  (h : List.Forall₂ Operation.Retyped condition condition') (size : Nat)
include h

theorem skip_older : (σ.skip condition size).Retyped (σ.older.skip condition' size) := by
  unfold skip
  rw [← h.length_eq]
  exact .jump h (.branchIfFalse _) _

theorem round_older : (σ.round condition size).Retyped (σ.older.round condition' size) := by
  unfold round
  rw [← h.length_eq]
  exact .jump h (.branchIfFalse _) _

theorem exits_older : σ.older.exits condition' size = σ.exits condition size := by
  unfold exits
  rw [← h.length_eq]
  rfl

end

end Site

/-! ### Trees -/

/-- Where a plus sign joins strings with declared types, it does so with the older typing too or
adds; all other operators stay as they are. -/
theorem AdditiveOp.retyped_operation (op : AdditiveOp) {ty old : Ty} (h : ty.Blurred old) :
    (op.operation ty).Retyped (op.operation old) := by
  unfold AdditiveOp.operation
  by_cases hold : op = .add ∧ old = .string
  · -- a known string was one all along
    obtain rfl := h.eq (by simp [hold.2]) (by simp [hold.2])
    exact .same _
  · rw [if_neg hold]
    split
    · next hconcat =>
      rw [hconcat.1]
      exact .concat
    · exact .same _

/-- What the older typing does to an expression that means something with both: its type may be
lost, and its code is retyped. -/
theorem Expr.retyped_of_lower? {σ : Site} : ∀ {r : Rung} {e : Expr r} {ty old : Ty}
    {code code' : List Operation}, e.lower? σ = some (ty, code) →
    e.lower? σ.older = some (old, code') →
    ty.Blurred old ∧ List.Forall₂ Operation.Retyped code code'
  | _, .number _, _, _, _, _, h, h' => by
    obtain ⟨rfl, rfl⟩ := Prod.mk.inj (Option.some.inj (h.symm.trans h'))
    exact ⟨.inl rfl, Operation.retyped_refl _⟩
  | _, .boolean _, _, _, _, _, h, h' => by
    obtain ⟨rfl, rfl⟩ := Prod.mk.inj (Option.some.inj (h.symm.trans h'))
    exact ⟨.inl rfl, Operation.retyped_refl _⟩
  | _, .name _, _, _, _, _, h, h' => by
    obtain ⟨operation, hload, rfl⟩ := lower?_name.mp h
    obtain ⟨operation', hload', rfl⟩ := lower?_name.mp h'
    obtain ⟨hty, rfl⟩ := Site.load?_older hload hload'
    exact ⟨hty, Operation.retyped_refl _⟩
  | _, .assign _ value, _, _, _, _, h, h' => by
    obtain ⟨found, values, target, slot, hvalue, hstore, -, rfl, rfl⟩ := lower?_assign.mp h
    obtain ⟨found', values', target', slot', hvalue', hstore', -, rfl, rfl⟩ := lower?_assign.mp h'
    -- the variable that is assigned to is converted to its declared type with both typings
    obtain ⟨rfl, rfl⟩ := Prod.mk.inj (Option.some.inj (hstore.symm.trans hstore'))
    obtain ⟨hty, hcode⟩ := retyped_of_lower? hvalue hvalue'
    exact ⟨.inl rfl, List.rel_append hcode (.cons (.convert target hty) (.cons (.same _) .nil))⟩
  | _, .factor e, _, _, _, _, h, h' => retyped_of_lower? (e := e) h h'
  | _, .product _ op _, _, _, _, _, h, h' => by
    obtain ⟨tl, cl, tr, cr, hl, hr, hty, rfl⟩ := lower?_product.mp h
    obtain ⟨tl', cl', tr', cr', hl', hr', hty', rfl⟩ := lower?_product.mp h'
    obtain ⟨hleft, hcl⟩ := retyped_of_lower? hl hl'
    obtain ⟨hright, hcr⟩ := retyped_of_lower? hr hr'
    exact ⟨hleft.operate? hright hty hty',
      List.rel_append (List.rel_append hcl hcr) (Operation.retyped_refl _)⟩
  | _, .unsigned e, _, _, _, _, h, h' => retyped_of_lower? (e := e) h h'
  | _, .signed sign _, _, _, _, _, h, h' => by
    obtain ⟨operand, operations, he, hty, rfl⟩ := lower?_signed.mp h
    obtain ⟨operand', operations', he', hty', rfl⟩ := lower?_signed.mp h'
    obtain ⟨hoperand, hcode⟩ := retyped_of_lower? he he'
    exact ⟨hoperand.unary? hty hty', List.rel_append hcode (Operation.retyped_refl _)⟩
  | _, .first e, _, _, _, _, h, h' => retyped_of_lower? (e := e) h h'
  | _, .sum _ op _, _, _, _, _, h, h' => by
    obtain ⟨tl, cl, tr, cr, hl, hr, hty, rfl⟩ := lower?_sum.mp h
    obtain ⟨tl', cl', tr', cr', hl', hr', hty', rfl⟩ := lower?_sum.mp h'
    obtain ⟨hleft, hcl⟩ := retyped_of_lower? hl hl'
    obtain ⟨hright, hcr⟩ := retyped_of_lower? hr hr'
    exact ⟨hleft.operate? hright hty hty',
      List.rel_append (List.rel_append hcl hcr) (.cons (op.retyped_operation hleft) .nil)⟩
  | _, .single e, _, _, _, _, h, h' => retyped_of_lower? (e := e) h h'
  | _, .comparison _ op _, _, _, _, _, h, h' => by
    obtain ⟨tl, cl, tr, cr, hl, hr, -, rfl, rfl⟩ := lower?_comparison.mp h
    obtain ⟨tl', cl', tr', cr', hl', hr', -, rfl, rfl⟩ := lower?_comparison.mp h'
    obtain ⟨-, hcl⟩ := retyped_of_lower? hl hl'
    obtain ⟨-, hcr⟩ := retyped_of_lower? hr hr'
    exact ⟨.inl rfl, List.rel_append (List.rel_append hcl hcr) (Operation.retyped_refl _)⟩

theorem Expr.retyped_of_lowerTo? {σ : Site} {expected : Ty} {e : Expr .relation}
    {code code' : List Operation} (h : e.lowerTo? σ expected = some code)
    (h' : e.lowerTo? σ.older expected = some code') :
    List.Forall₂ Operation.Retyped code code' := by
  obtain ⟨found, he, -⟩ := lowerTo?_eq_some.mp h
  obtain ⟨found', he', -⟩ := lowerTo?_eq_some.mp h'
  exact (retyped_of_lower? he he').2

mutual

/-- What the older typing does to a statement.  The code in front of a part has the same length, so
its branches have the same targets. -/
theorem Stmt.retyped_of_lower? : ∀ (s : Stmt) {σ : Site} {f f' : Fragment}, s.lower? σ = some f →
    s.lower? σ.older = some f' → f.Retyped f'
  | .block items, _, _, _, h, h' => items.retyped_of_lower? h h'
  | .branch condition body, σ, _, _, h, h' => by
    obtain ⟨code, hc, g, hg, rfl⟩ := Stmt.lower?_branch.mp h
    obtain ⟨code', hc', g', hg', rfl⟩ := Stmt.lower?_branch.mp h'
    have hhead : (σ.skip code body.size).Retyped (σ.older.skip code' body.size) :=
      Site.skip_older (Expr.retyped_of_lowerTo? hc hc') body.size
    rw [← Site.older_past hhead] at hg'
    exact hhead.append (body.retyped_of_lower? hg hg')
  | .choice condition body other, σ, _, _, h, h' => by
    obtain ⟨code, hc, g, hg, o, ho, rfl⟩ := Stmt.lower?_choice.mp h
    obtain ⟨code', hc', g', hg', o', ho', rfl⟩ := Stmt.lower?_choice.mp h'
    have hhead : (σ.skip code (body.size + 1)).Retyped (σ.older.skip code' (body.size + 1)) :=
      Site.skip_older (Expr.retyped_of_lowerTo? hc hc') (body.size + 1)
    rw [← Site.older_past hhead] at hg'
    have hfirst := hhead.append (body.retyped_of_lower? hg hg')
    -- the code so far is of the same length, so the other part begins at the same place
    rw [← Site.older_past hfirst] at ho' ⊢
    have hmiddle : ((σ.past (σ.skip code (body.size + 1) ++ g)).leap other.size).Retyped
        ((σ.past (σ.skip code (body.size + 1) ++ g)).older.leap other.size) :=
      .jump .nil (.branch _) _
    have hsecond := hfirst.append hmiddle
    rw [← Site.older_past hsecond] at ho'
    exact hsecond.append (other.retyped_of_lower? ho ho')
  | .loop condition body, σ, _, _, h, h' => by
    obtain ⟨code, hc, g, hg, rfl⟩ := Stmt.lower?_loop.mp h
    obtain ⟨code', hc', g', hg', rfl⟩ := Stmt.lower?_loop.mp h'
    have hcode := Expr.retyped_of_lowerTo? hc hc'
    have hhead : (σ.round code body.size).Retyped (σ.older.round code' body.size) :=
      Site.round_older hcode body.size
    -- the loop is left for the same offsets
    rw [← Site.older_past hhead, Site.exits_older hcode] at hg'
    have hbody : g.Retyped g' := body.retyped_of_lower? hg hg'
    exact (hhead.append hbody).append (.jump .nil (.branch _) _)
  | .expression e, _, _, _, h, h' => by
    obtain ⟨ty, code, he, rfl⟩ := Stmt.lower?_expression.mp h
    obtain ⟨ty', code', he', rfl⟩ := Stmt.lower?_expression.mp h'
    obtain ⟨-, hcode⟩ := Expr.retyped_of_lower? he he'
    cases e.isAssign with
    | true => exact .plain hcode
    | false => exact .plain (List.rel_append hcode (Operation.retyped_refl _))
  | .empty, _, _, _, h, h' => by
    cases h
    cases h'
    exact .empty
  | .print none, _, _, _, h, h' => by
    cases h
    cases h'
    exact .empty
  | .print (some x), _, _, _, h, h' => by
    obtain ⟨ty, operation, hload, rfl⟩ := Stmt.lower?_print.mp h
    obtain ⟨ty', operation', hload', rfl⟩ := Stmt.lower?_print.mp h'
    obtain ⟨-, rfl⟩ := Site.load?_older hload hload'
    exact .plain (Operation.retyped_refl _)
  | .bug body, _, _, _, h, h' => body.retyped_of_lower? h h'
  | .ret none, _, _, _, h, h' => by
    obtain ⟨-, rfl⟩ := Stmt.lower?_ret_none.mp h
    obtain ⟨-, rfl⟩ := Stmt.lower?_ret_none.mp h'
    exact .plain (Operation.retyped_refl _)
  | .ret (some e), _, _, _, h, h' => by
    obtain ⟨code, he, -, rfl⟩ := Stmt.lower?_ret_some.mp h
    obtain ⟨code', he', -, rfl⟩ := Stmt.lower?_ret_some.mp h'
    exact .plain (List.rel_append (Expr.retyped_of_lowerTo? he he') (Operation.retyped_refl _))
  | .leave exit, _, _, _, h, h' => by
    obtain ⟨exits, hexits, -, rfl⟩ := Stmt.lower?_leave.mp h
    obtain ⟨exits', hexits', -, rfl⟩ := Stmt.lower?_leave.mp h'
    obtain rfl := Option.some.inj (hexits.symm.trans hexits')
    exact .jump .nil (.branch _) _

/-- What the older typing does to an item.  A body is retyped on its own. -/
theorem Item.retyped_of_lower? : ∀ (item : Item) {σ : Site} {f f' : Fragment},
    item.lower? σ = some f → item.lower? σ.older = some f' → f.Retyped f'
  | .field _ _, _, _, _, h, h' => by
    obtain ⟨-, rfl⟩ := Item.lower?_field.mp h
    obtain ⟨-, rfl⟩ := Item.lower?_field.mp h'
    exact ⟨rfl, rfl, .nil, rfl, .nil⟩
  | .method _ _ _ _ body, _, _, _, h, h' => by
    obtain ⟨g, hg, -, rfl⟩ := Item.lower?_method.mp h
    obtain ⟨g', hg', -, rfl⟩ := Item.lower?_method.mp h'
    exact (body.retyped_of_lower? hg hg').declaration _ _ _
  | .statement s, _, _, _, h, h' => s.retyped_of_lower? h h'

/-- **What the older typing does to a statement list**: code is retyped, and all else stays. -/
theorem Items.retyped_of_lower? : ∀ (items : Items) {σ : Site} {f f' : Fragment},
    items.lower? σ = some f → items.lower? σ.older = some f' → f.Retyped f'
  | .nil, _, _, _, h, h' => by
    cases h
    cases h'
    exact .empty
  | .cons item rest, _, _, _, h, h' => by
    obtain ⟨g, hg, k, hk, rfl⟩ := Items.lower?_cons.mp h
    obtain ⟨g', hg', k', hk', rfl⟩ := Items.lower?_cons.mp h'
    have hitem := item.retyped_of_lower? hg hg'
    rw [← Site.older_past hitem] at hk'
    exact hitem.append (rest.retyped_of_lower? hk hk')

end

/-! ### Sources -/

/-- A source is read as one tree: whatever the names in it stand for, among trees that mean
something only one is written with its tokens. -/
theorem Writes.unique {source : String} {items items' : Items} {tokens tokens' : List Token}
    (h : Writes source items tokens) (h' : Writes source items' tokens') (hclear : items.Clear)
    (hclear' : items'.Clear) : items = items' ∧ tokens = tokens' := by
  obtain ⟨hscans, hkinds⟩ := h
  obtain ⟨hscans', hkinds'⟩ := h'
  obtain rfl : tokens = tokens' :=
    List.map_injective_iff.mpr (fun _ _ => Except.ok.inj) (hscans.symm.trans hscans')
  obtain ⟨rfl, -⟩ := items.eq_of_kinds items' hclear hclear' (.inr rfl) (.inr rfl)
    (hkinds.symm.trans hkinds')
  exact ⟨rfl, rfl⟩

/-- **The older typing changes types only.**  If a source compiles with declared types and, the
other options being the same, with the older typing, then the programs have the same methods,
with the same signatures, parameters, locals, label offsets and amount of code, and instruction by
instruction they are the same, save that a conversion may be from another type and that an addition
may stand where strings are joined.  The reports are equal. -/
theorem compile_legacy {options : Options} {source : String} {c c' : Compilation}
    (h : compile { options with typing := .declared } source = .ok c)
    (h' : compile { options with typing := .legacy } source = .ok c') :
    c.program.name = c'.program.name ∧
    List.Forall₂ Method.Retyped c.program.methods.toList c'.program.methods.toList ∧
    c.diagnostics = c'.diagnostics := by
  obtain ⟨items, tokens, hwrites, hclosed, hprogram, hwarnings⟩ := compile_eq_ok_iff.mp h
  obtain ⟨items', tokens', hwrites', hclosed', hprogram', hwarnings'⟩ := compile_eq_ok_iff.mp h'
  obtain ⟨f, hf, hname⟩ := Items.program?_eq_some.mp hprogram
  obtain ⟨f', hf', hname'⟩ := Items.program?_eq_some.mp hprogram'
  -- both trees mean something, each with its own typing, so they are the same
  obtain ⟨rfl, rfl⟩ := hwrites.unique hwrites' ⟨⟨_, f, hf⟩, hclosed⟩ ⟨⟨_, f', hf'⟩, hclosed'⟩
  have hretyped : f.Retyped f' := items.retyped_of_lower? hf hf'
  refine ⟨?_, ?_, ?_⟩
  · rw [← hname, ← hname']
  · rw [← hname, ← hname']
    exact .cons (hretyped.method "main" .void []) hretyped.methods
  · have hentries := hwarnings.trans hwarnings'.symm
    exact congrArg Diagnostics.mk (Array.toList_inj.mp hentries)

/-- A text where the older typing loses the type of a string, because the variable is not declared
in the innermost scope. -/
def joiningSource : String :=
  "string s; void f(string p) \x7b if (true) s = s + p; bug ; ; \x7d"

/-- Its program, up to what joins the strings and the type that is converted from. -/
def joiningProgram (join : Operation) (found : Ty) : Program where
  name := "MyProgram"
  methods := #[
    { name := "main"
      returnType := .void
      locals := #[⟨"s", .string⟩]
      code := #[.plain .ret] },
    { name := "f"
      returnType := .void
      parameters := #[⟨.string, some "p"⟩]
      code := #[.plain (.loadBool true), .branchIfFalse (.offset 7), .plain (.loadLocal ⟨0, 0⟩),
        .plain (.loadArg 1), .plain join, .plain (.convert .string found),
        .plain (.storeLocal ⟨0, 0⟩), .plain .ret]
      labels := #[.bound 7] }]

theorem compile_legacy_joining : ∃ diagnostics,
    compile { ({} : Options) with typing := .declared } joiningSource =
      .ok ⟨joiningProgram .concat .string, diagnostics⟩ ∧
    compile { ({} : Options) with typing := .legacy } joiningSource =
      .ok ⟨joiningProgram (.additive .add) .unknown, diagnostics⟩ ∧
    List.Forall₂ Method.Retyped (joiningProgram .concat .string).methods.toList
      (joiningProgram (.additive .add) .unknown).methods.toList := by
  have h : compile { ({} : Options) with typing := .declared } joiningSource =
      .ok ⟨joiningProgram .concat .string, ⟨#[.warning ⟨1, 51⟩ .possibleBug]⟩⟩ :=
    eq_ok_of_toOption (by decide +kernel)
  have h' : compile { ({} : Options) with typing := .legacy } joiningSource =
      .ok ⟨joiningProgram (.additive .add) .unknown, ⟨#[.warning ⟨1, 51⟩ .possibleBug]⟩⟩ :=
    eq_ok_of_toOption (by decide +kernel)
  exact ⟨_, h, h', (compile_legacy h h').2.1⟩

end OnePass
