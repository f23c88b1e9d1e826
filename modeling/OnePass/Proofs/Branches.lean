import OnePass.Proofs.Translation

/-!
# Where branches go

Every branch of a compiled method goes to an offset of that method, or to the one just
behind its last instruction.  A method ends in a return, but no second one is added
behind a return that the source put last.  So a branch leaves its method exactly if the
last instructions come from an `if` that ends in a `return`: the branch around them
goes to where the method is over.

## Main definitions

* `Stmt.returnsLast`, `Items.returnsLast` — the last instruction is a return.
* `Stmt.overruns`, `Items.overruns` — the last instruction is a return, and a branch goes
  around it.

## Main results

* `Stmt.confined`, `Items.confined` — branches stay inside of a statement, or leave a loop.
* `Items.overruns_iff` — what `overruns` says of the code.
* `branches_stay_inside_iff` — **which methods are left by a branch**.
* `branch_leaves_method` — a source with such a method.
-/

namespace OnePass

/-! ### The last instruction -/

mutual

/-- Whether the last instruction of a statement is a return.  A loop ends in a branch back, and an
expression in the value it drops. -/
def Stmt.returnsLast : Stmt → Bool
  | .block items => items.returnsLast
  | .branch _ body => body.returnsLast
  | .choice _ _ other => other.returnsLast
  | .bug body => body.returnsLast
  | .ret _ => true
  | .loop _ _ => false
  | .expression _ => false
  | .empty => false
  | .print _ => false
  | .leave _ => false

/-- Whether the last instruction of an item is a return.  A declaration has no code where it
stands. -/
def Item.returnsLast : Item → Bool
  | .field _ _ => false
  | .method _ _ _ _ _ => false
  | .statement s => s.returnsLast

/-- Whether the last instruction of a statement list is a return.  Items without code do not
count. -/
def Items.returnsLast : Items → Bool
  | .nil => false
  | .cons item rest => if rest.size = 0 then item.returnsLast else rest.returnsLast

end

mutual

/-- Whether the last instruction of a statement is a return, and a branch goes around it: the
last code is that of an `if` that ends in a `return`. -/
def Stmt.overruns : Stmt → Bool
  | .block items => items.overruns
  | .branch _ body => body.returnsLast
  | .choice _ _ other => other.returnsLast
  | .bug body => body.overruns
  | .ret _ => false
  | .loop _ _ => false
  | .expression _ => false
  | .empty => false
  | .print _ => false
  | .leave _ => false

/-- The same for an item, of which only a statement has code. -/
def Item.overruns : Item → Bool
  | .field _ _ => false
  | .method _ _ _ _ _ => false
  | .statement s => s.overruns

/-- The same for a statement list.  What counts is the last item that has code. -/
def Items.overruns : Items → Bool
  | .nil => false
  | .cons item rest => if rest.size = 0 then item.overruns else rest.overruns

end

/-- No expression returns, so that a return is always that of a statement. -/
theorem Expr.ret_notMem_of_lower? {σ : Site} : ∀ {r : Rung} {e : Expr r} {ty : Ty}
    {code : List Operation}, e.lower? σ = some (ty, code) → .ret ∉ code
  | _, .number _, _, _, h => by
    obtain ⟨-, rfl⟩ := Prod.mk.inj (Option.some.inj h)
    simp
  | _, .boolean _, _, _, h => by
    obtain ⟨-, rfl⟩ := Prod.mk.inj (Option.some.inj h)
    simp
  | _, .name x, _, _, h => by
    obtain ⟨operation, hload, rfl⟩ := lower?_name.mp h
    unfold Site.load? at hload
    split at hload
    · split at hload <;> cases hload
      simp
    · split at hload <;> cases hload
      simp
    · cases hload
    · cases hload
  | _, .assign _ _, _, _, h => by
    obtain ⟨found, values, target, slot, hvalue, -, -, -, rfl⟩ := lower?_assign.mp h
    simp [ret_notMem_of_lower? hvalue]
  | _, .factor e, _, _, h => ret_notMem_of_lower? (e := e) h
  | _, .product _ _ _, _, _, h => by
    obtain ⟨tl, cl, tr, cr, hl, hr, -, rfl⟩ := lower?_product.mp h
    simp [ret_notMem_of_lower? hl, ret_notMem_of_lower? hr]
  | _, .unsigned e, _, _, h => ret_notMem_of_lower? (e := e) h
  | _, .first e, _, _, h => ret_notMem_of_lower? (e := e) h
  | _, .signed sign _, _, _, h => by
    obtain ⟨operand, operations, he, -, rfl⟩ := lower?_signed.mp h
    cases sign <;> simp [Sign.operations, ret_notMem_of_lower? he]
  | _, .sum _ op _, _, _, h => by
    obtain ⟨tl, cl, tr, cr, hl, hr, -, rfl⟩ := lower?_sum.mp h
    have hop : .ret ≠ op.operation tl := by
      unfold AdditiveOp.operation
      split <;> simp
    simp [ret_notMem_of_lower? hl, ret_notMem_of_lower? hr, hop]
  | _, .single e, _, _, h => ret_notMem_of_lower? (e := e) h
  | _, .comparison _ _ _, _, _, h => by
    obtain ⟨tl, cl, tr, cr, hl, hr, -, -, rfl⟩ := lower?_comparison.mp h
    simp [ret_notMem_of_lower? hl, ret_notMem_of_lower? hr]

/-- The last instruction of two pieces of code is that of the second one, if it has any. -/
theorem getLast?_append_eq_ret {xs ys : List Instruction} :
    (xs ++ ys).getLast? = some (.plain .ret) ↔ ys.getLast? = some (.plain .ret) ∨
      ys = [] ∧ xs.getLast? = some (.plain .ret) := by
  rw [List.getLast?_append]
  cases hys : ys.getLast? with
  | none => simp [List.getLast?_eq_none_iff.mp hys]
  | some i =>
    have hne : ys ≠ [] := by
      rintro rfl
      cases hys
    simp [hne]

mutual

theorem Stmt.returnsLast_iff : ∀ (t : Stmt) {σ : Site} {f : Fragment}, t.lower? σ = some f →
    (f.code.getLast? = some (.plain .ret) ↔ t.returnsLast = true)
  | .block items, _, _, h => items.returnsLast_iff h
  | .branch condition body, σ, _, h => by
    obtain ⟨code, -, g, hg, rfl⟩ := Stmt.lower?_branch.mp h
    rw [Fragment.append_code, getLast?_append_eq_ret, body.returnsLast_iff hg]
    simp [Stmt.returnsLast, Site.skip, Fragment.jump]
  | .choice condition body other, σ, _, h => by
    obtain ⟨code, -, g, -, g', hg', rfl⟩ := Stmt.lower?_choice.mp h
    rw [Fragment.append_code, getLast?_append_eq_ret, other.returnsLast_iff hg']
    simp [Stmt.returnsLast, Site.leap, Fragment.jump]
  | .loop condition body, σ, _, h => by
    obtain ⟨code, -, g, -, rfl⟩ := Stmt.lower?_loop.mp h
    simp [Stmt.returnsLast, Site.again, Fragment.jump]
  | .expression e, _, _, h => by
    obtain ⟨ty, code, he, rfl⟩ := Stmt.lower?_expression.mp h
    have hret := Expr.ret_notMem_of_lower? he
    simp only [Stmt.returnsLast, Bool.false_eq_true, iff_false]
    intro hlast
    -- a value that is dropped is not returned either
    have hmem : .ret ∈ (if e.isAssign then code else code ++ [.pop]) := by
      simpa [Fragment.plain] using List.mem_of_getLast? hlast
    split at hmem
    · exact hret hmem
    · simp [hret] at hmem
  | .empty, _, _, h => by cases h; simp [Stmt.returnsLast]
  | .print none, _, _, h => by cases h; simp [Stmt.returnsLast]
  | .print (some x), _, _, h => by
    obtain ⟨ty, operation, -, rfl⟩ := Stmt.lower?_print.mp h
    simp [Stmt.returnsLast, Fragment.plain]
  | .bug body, _, _, h => body.returnsLast_iff h
  | .ret none, _, _, h => by
    obtain ⟨-, rfl⟩ := Stmt.lower?_ret_none.mp h
    simp [Stmt.returnsLast, Fragment.plain]
  | .ret (some e), _, _, h => by
    obtain ⟨code, -, -, rfl⟩ := Stmt.lower?_ret_some.mp h
    simp [Stmt.returnsLast, Fragment.plain]
  | .leave exit, _, _, h => by
    obtain ⟨exits, -, -, rfl⟩ := Stmt.lower?_leave.mp h
    simp [Stmt.returnsLast, Fragment.jump]

theorem Item.returnsLast_iff : ∀ (item : Item) {σ : Site} {f : Fragment}, item.lower? σ = some f →
    (f.code.getLast? = some (.plain .ret) ↔ item.returnsLast = true)
  | .field _ _, _, _, h => by
    obtain ⟨-, rfl⟩ := Item.lower?_field.mp h
    simp [Item.returnsLast, Site.field]
  | .method _ _ _ _ _, _, _, h => by
    obtain ⟨g, -, -, rfl⟩ := Item.lower?_method.mp h
    simp [Item.returnsLast, Fragment.declaration]
  | .statement t, _, _, h => t.returnsLast_iff h

theorem Items.returnsLast_iff : ∀ (items : Items) {σ : Site} {f : Fragment},
    items.lower? σ = some f → (f.code.getLast? = some (.plain .ret) ↔ items.returnsLast = true)
  | .nil, _, _, h => by cases h; simp [Items.returnsLast]
  | .cons item rest, _, _, h => by
    obtain ⟨g, hg, g', hg', rfl⟩ := Items.lower?_cons.mp h
    have hsize : g'.code = [] ↔ rest.size = 0 := by
      rw [← rest.length_code hg', List.length_eq_zero_iff]
    rw [Fragment.append_code, getLast?_append_eq_ret, rest.returnsLast_iff hg',
      item.returnsLast_iff hg, hsize, Items.returnsLast]
    split
    · next hzero =>
      -- items without code have no last instruction at all
      have hnone : rest.returnsLast = false := by
        refine Bool.eq_false_iff.mpr fun htrue => ?_
        have hlast := (rest.returnsLast_iff hg').mpr htrue
        rw [hsize.mpr hzero] at hlast
        cases hlast
      simp [hnone, hzero]
    · next hzero => simp [hzero]

end

/-! ### Targets -/

/-- A target is an offset not behind `last`, or one of the exits of the loop around.  The exits can
be anywhere, as the loop goes on behind the statement. -/
def Site.Admits (σ : Site) (last : Nat) (target : Target) : Prop :=
  (∃ o, target = .offset o ∧ o ≤ last) ∨
    ∃ exits, σ.loop = some exits ∧ (target = exits.after ∨ target = exits.again)

theorem Site.Admits.mono {σ : Site} {m n : Nat} {target : Target} (h : σ.Admits m target)
    (hle : m ≤ n) : σ.Admits n target := by
  rcases h with ⟨o, rfl, ho⟩ | h
  · exact .inl ⟨o, rfl, Nat.le_trans ho hle⟩
  · exact .inr h

/-- All branches of a fragment go to targets that are admitted at the site around it. -/
def Fragment.Confined (σ : Site) (f : Fragment) (last : Nat) : Prop :=
  ∀ i ∈ f.code, ∀ target, i.target? = some target → σ.Admits last target

namespace Fragment

theorem Confined.append {σ : Site} {f g : Fragment} {last : Nat} (hf : f.Confined σ last)
    (hg : g.Confined σ last) : (f ++ g).Confined σ last := by
  intro i hi
  rcases List.mem_append.mp hi with hi | hi
  · exact hf i hi
  · exact hg i hi

theorem Confined.mono {σ : Site} {f : Fragment} {m n : Nat} (h : f.Confined σ m) (hle : m ≤ n) :
    f.Confined σ n :=
  fun i hi target htarget => (h i hi target htarget).mono hle

theorem confined_plain (σ : Site) (operations : List Operation) (last : Nat) :
    (Fragment.plain operations).Confined σ last := by
  intro i hi target htarget
  obtain ⟨operation, -, rfl⟩ := List.mem_map.mp hi
  cases htarget

theorem confined_jump {σ : Site} (operations : List Operation) {branch : Instruction}
    (labels : List Nat) {last : Nat}
    (h : ∀ target, branch.target? = some target → σ.Admits last target) :
    (Fragment.jump operations branch labels).Confined σ last := by
  intro i hi target htarget
  rcases List.mem_append.mp hi with hi | hi
  · exact confined_plain σ operations last i hi target htarget
  · exact h target (List.mem_singleton.mp hi ▸ htarget)

theorem confined_offset {σ : Site} (operations : List Operation) {branch : Instruction}
    (labels : List Nat) {o last : Nat} (hbranch : branch.target? = some (.offset o))
    (ho : o ≤ last) : (Fragment.jump operations branch labels).Confined σ last :=
  confined_jump operations labels fun _ htarget =>
    .inl ⟨o, (Option.some.inj (hbranch.symm.trans htarget)).symm, ho⟩

theorem confined_empty (σ : Site) (last : Nat) : ({} : Fragment).Confined σ last := by
  intro i hi
  cases hi

end Fragment

mutual

/-- Branches stay inside of a statement, or leave the loop around it.  A branch just behind the
statement counts as staying inside. -/
theorem Stmt.confined : ∀ (t : Stmt) {σ : Site} {f : Fragment}, t.lower? σ = some f →
    f.Confined σ (σ.offset + f.code.length)
  | .block items, _, _, h => items.confined h
  | .branch condition body, σ, _, h => by
    obtain ⟨code, -, g, hg, rfl⟩ := Stmt.lower?_branch.mp h
    -- the branch over the body goes just behind it, which is the end of the statement
    have hbody := body.confined hg
    have hsize := body.length_code hg
    rw [Site.past_skip] at hbody
    simp only [Site.ahead] at hbody
    simp only [Fragment.append_code, List.length_append, Site.length_skip]
    exact .append (Fragment.confined_offset code _ rfl (by omega)) (.mono hbody (by omega))
  | .choice condition body other, σ, _, h => by
    obtain ⟨code, -, g, hg, g', hg', rfl⟩ := Stmt.lower?_choice.mp h
    have hbody := body.confined hg
    have hother := other.confined hg'
    have hsize := body.length_code hg
    have hsize' := other.length_code hg'
    rw [Site.past_skip] at hbody
    rw [Site.past_append, Site.past_append, Site.past_skip, Site.past_leap] at hother
    simp only [Site.ahead, Site.past] at hbody hother
    simp only [Fragment.append_code, List.length_append, Site.length_skip, Site.length_leap]
    -- the body is skipped to behind the jump, and the jump skips the alternative
    refine .append (.append (.append (Fragment.confined_offset code _ rfl (by omega))
      (.mono hbody (by omega))) (Fragment.confined_offset [] _ rfl ?_)) (.mono hother (by omega))
    simp only [Site.past, Fragment.append_code, List.length_append, Site.length_skip]
    omega
  | .loop condition body, σ, _, h => by
    obtain ⟨code, -, g, hg, rfl⟩ := Stmt.lower?_loop.mp h
    have hbody := body.confined hg
    have hsize := body.length_code hg
    simp only [Fragment.append_code, List.length_append, Site.length_round, Site.length_again]
    refine .append (.append (Fragment.confined_offset code _ rfl (by omega)) ?_)
      (Fragment.confined_offset [] _ rfl (by omega))
    -- the exits of this loop are offsets of the statement
    intro i hi target htarget
    rcases hbody i hi target htarget with ⟨o, rfl, ho⟩ | ⟨exits, hexits, hexit⟩
    · refine .inl ⟨o, rfl, ?_⟩
      rw [Site.past_round] at ho
      simp only [Site.ahead, Site.within] at ho
      omega
    · obtain rfl : σ.exits code body.size = exits := Option.some.inj hexits
      rcases hexit with rfl | rfl
      · exact .inl ⟨_, rfl, by omega⟩
      · exact .inl ⟨_, rfl, by omega⟩
  | .expression e, σ, _, h => by
    obtain ⟨ty, code, -, rfl⟩ := Stmt.lower?_expression.mp h
    exact Fragment.confined_plain σ _ _
  | .empty, σ, _, h => by cases h; exact Fragment.confined_empty σ _
  | .print none, σ, _, h => by cases h; exact Fragment.confined_empty σ _
  | .print (some x), σ, _, h => by
    obtain ⟨ty, operation, -, rfl⟩ := Stmt.lower?_print.mp h
    exact Fragment.confined_plain σ _ _
  | .bug body, _, _, h => body.confined h
  | .ret none, σ, _, h => by
    obtain ⟨-, rfl⟩ := Stmt.lower?_ret_none.mp h
    exact Fragment.confined_plain σ _ _
  | .ret (some e), σ, _, h => by
    obtain ⟨code, -, -, rfl⟩ := Stmt.lower?_ret_some.mp h
    exact Fragment.confined_plain σ _ _
  | .leave exit, σ, _, h => by
    obtain ⟨exits, hexits, -, rfl⟩ := Stmt.lower?_leave.mp h
    refine Fragment.confined_jump [] _ fun target htarget => .inr ⟨exits, hexits, ?_⟩
    obtain rfl := Option.some.inj htarget
    cases exit
    · exact .inl rfl
    · exact .inr rfl

theorem Item.confined : ∀ (item : Item) {σ : Site} {f : Fragment}, item.lower? σ = some f →
    f.Confined σ (σ.offset + f.code.length)
  | .field _ _, σ, _, h => by
    obtain ⟨-, rfl⟩ := Item.lower?_field.mp h
    exact Fragment.confined_empty σ _
  | .method _ _ _ _ _, σ, _, h => by
    obtain ⟨g, -, -, rfl⟩ := Item.lower?_method.mp h
    exact Fragment.confined_empty σ _
  | .statement t, _, _, h => t.confined h

theorem Items.confined : ∀ (items : Items) {σ : Site} {f : Fragment}, items.lower? σ = some f →
    f.Confined σ (σ.offset + f.code.length)
  | .nil, σ, _, h => by cases h; exact Fragment.confined_empty σ _
  | .cons item rest, σ, _, h => by
    obtain ⟨g, hg, g', hg', rfl⟩ := Items.lower?_cons.mp h
    have hrest : g'.Confined σ ((σ.past g).offset + g'.code.length) := rest.confined hg'
    simp only [Site.past] at hrest
    simp only [Fragment.append_code, List.length_append]
    exact .append (.mono (item.confined hg) (by omega)) (.mono hrest (by omega))

end

/-! ### Branches around the last return -/

/-- The fragment of code at an offset ends in a return, and a branch goes around it, to where the
fragment is over. -/
def Fragment.Overruns (f : Fragment) (offset : Nat) : Prop :=
  f.code.getLast? = some (.plain .ret) ∧
    ∃ i ∈ f.code, i.target? = some (.offset (offset + f.code.length))

/-- Operations go on one after the other, so nothing goes around them. -/
theorem Fragment.not_overruns_plain (operations : List Operation) (offset : Nat) :
    ¬ (Fragment.plain operations).Overruns offset := by
  rintro ⟨-, i, hi, htarget⟩
  obtain ⟨operation, -, rfl⟩ := List.mem_map.mp hi
  cases htarget

theorem Fragment.not_overruns_of_code_eq_nil {f : Fragment} (h : f.code = []) (offset : Nat) :
    ¬ f.Overruns offset := by
  rintro ⟨hlast, -⟩
  rw [h] at hlast
  cases hlast

mutual

theorem Stmt.overruns_iff : ∀ (t : Stmt) {σ : Site} {f : Fragment}, σ.loop = none →
    t.lower? σ = some f → (f.Overruns σ.offset ↔ t.overruns = true)
  | .block items, _, _, hloop, h => items.overruns_iff hloop h
  | .branch condition body, σ, _, _, h => by
    have hlast := Stmt.returnsLast_iff _ h
    obtain ⟨code, -, g, hg, rfl⟩ := Stmt.lower?_branch.mp h
    -- if the statement ends in the return of its body, the branch over the body is the one
    refine ⟨fun h => hlast.mp h.1, fun h => ⟨hlast.mpr h, ?_⟩⟩
    refine ⟨.branchIfFalse (.offset (σ.offset + code.length + 1 + body.size)), ?_, ?_⟩
    · simp [Site.skip, Fragment.jump]
    · simp only [Instruction.target?, Fragment.append_code, List.length_append, Site.length_skip,
        body.length_code hg, Nat.add_assoc]
  | .choice condition body other, σ, _, _, h => by
    have hlast := Stmt.returnsLast_iff _ h
    obtain ⟨code, -, g, hg, g', hg', rfl⟩ := Stmt.lower?_choice.mp h
    refine ⟨fun h => hlast.mp h.1, fun h => ⟨hlast.mpr h, ?_⟩⟩
    refine ⟨.branch (.offset ((σ.past (σ.skip code (body.size + 1) ++ g)).offset + 1 + other.size)),
      ?_, ?_⟩
    · simp [Site.leap, Fragment.jump]
    · simp only [Instruction.target?, Site.past, Fragment.append_code, List.length_append,
        Site.length_skip, Site.length_leap, other.length_code hg', Nat.add_assoc]
  | .loop condition body, _, _, _, h => by
    have hlast := Stmt.returnsLast_iff _ h
    -- a loop never ends in a return
    exact ⟨fun h => hlast.mp h.1, fun h => by cases h⟩
  | .expression e, σ, _, _, h => by
    obtain ⟨ty, code, -, rfl⟩ := Stmt.lower?_expression.mp h
    simp [Stmt.overruns, Fragment.not_overruns_plain]
  | .empty, σ, _, _, h => by
    cases h
    simp [Stmt.overruns, Fragment.not_overruns_of_code_eq_nil]
  | .print none, σ, _, _, h => by
    cases h
    simp [Stmt.overruns, Fragment.not_overruns_of_code_eq_nil]
  | .print (some x), σ, _, _, h => by
    obtain ⟨ty, operation, -, rfl⟩ := Stmt.lower?_print.mp h
    simp [Stmt.overruns, Fragment.not_overruns_plain]
  | .bug body, _, _, hloop, h => body.overruns_iff hloop h
  | .ret none, σ, _, _, h => by
    obtain ⟨-, rfl⟩ := Stmt.lower?_ret_none.mp h
    simp [Stmt.overruns, Fragment.not_overruns_plain]
  | .ret (some e), σ, _, _, h => by
    obtain ⟨code, -, -, rfl⟩ := Stmt.lower?_ret_some.mp h
    simp [Stmt.overruns, Fragment.not_overruns_plain]
  | .leave exit, σ, _, hloop, h => by
    -- outside of a loop there is nothing to leave
    obtain ⟨exits, hexits, -⟩ := Stmt.lower?_leave.mp h
    cases hloop.symm.trans hexits

theorem Item.overruns_iff : ∀ (item : Item) {σ : Site} {f : Fragment}, σ.loop = none →
    item.lower? σ = some f → (f.Overruns σ.offset ↔ item.overruns = true)
  | .field _ _, _, _, _, h => by
    obtain ⟨-, rfl⟩ := Item.lower?_field.mp h
    simp [Item.overruns, Fragment.not_overruns_of_code_eq_nil, Site.field]
  | .method _ _ _ _ _, _, _, _, h => by
    obtain ⟨g, -, -, rfl⟩ := Item.lower?_method.mp h
    simp [Item.overruns, Fragment.not_overruns_of_code_eq_nil, Fragment.declaration]
  | .statement t, _, _, hloop, h => t.overruns_iff hloop h

theorem Items.overruns_iff : ∀ (items : Items) {σ : Site} {f : Fragment}, σ.loop = none →
    items.lower? σ = some f → (f.Overruns σ.offset ↔ items.overruns = true)
  | .nil, _, _, _, h => by
    cases h
    simp [Items.overruns, Fragment.not_overruns_of_code_eq_nil]
  | .cons item rest, σ, _, hloop, h => by
    obtain ⟨g, hg, g', hg', rfl⟩ := Items.lower?_cons.mp h
    have hitem := item.overruns_iff hloop hg
    have hrest := rest.overruns_iff (σ := σ.past g) hloop hg'
    have hsize := rest.length_code hg'
    unfold Items.overruns Fragment.Overruns
    rw [Fragment.append_code, List.length_append]
    split
    · -- behind the item there is no code, so what counts is the item
      next hzero =>
      have hnil : g'.code = [] := List.length_eq_zero_iff.mp (hsize.trans hzero)
      rw [← hitem, hnil]
      simp [Fragment.Overruns]
    · -- there is code behind the item, and it decides
      next hzero =>
      have hne : g'.code ≠ [] := fun hnil => hzero (by rw [← hsize, hnil]; rfl)
      rw [← hrest, getLast?_append_eq_ret]
      simp only [hne, false_and, or_false, Fragment.Overruns]
      refine and_congr_right fun _ => ⟨?_, ?_⟩
      · rintro ⟨i, hi, htarget⟩
        rcases List.mem_append.mp hi with hi | hi
        · -- branches of the first item do not go that far
          rcases item.confined hg i hi _ htarget with ⟨o, ho, hle⟩ | ⟨exits, hexits, -⟩
          · obtain rfl := Target.offset.inj ho
            omega
          · cases hloop.symm.trans hexits
        · exact ⟨i, hi, by rwa [Site.past, Nat.add_assoc]⟩
      · rintro ⟨i, hi, htarget⟩
        exact ⟨i, List.mem_append_right _ hi, by rwa [Site.past, Nat.add_assoc] at htarget⟩

end

/-! ### Compiled methods -/

/-- Closing the code of a method adds no branch, only a return at most. -/
theorem Fragment.mem_code_of_target? {f : Fragment} {i : Instruction} {target : Target}
    (hi : i ∈ f.closedCode) (htarget : i.target? = some target) : i ∈ f.code := by
  unfold closedCode at hi
  split at hi
  · exact hi
  · rcases List.mem_append.mp hi with hi | hi
    · exact hi
    · obtain rfl := List.mem_singleton.mp hi
      cases htarget

theorem Fragment.code_subset_closedCode (f : Fragment) : f.code ⊆ f.closedCode := by
  unfold closedCode
  split
  · exact fun _ hi => hi
  · exact List.subset_append_left _ _

/-- Branches go no further than to the end of the fragment, if there is no loop around. -/
theorem Items.target_le {items : Items} {σ : Site} {f : Fragment} (h : items.lower? σ = some f)
    (hoffset : σ.offset = 0) (hloop : σ.loop = none) {i : Instruction} {target : Target}
    (hi : i ∈ f.closedCode) (htarget : i.target? = some target) :
    ∃ o, target = .offset o ∧ o ≤ f.code.length := by
  rcases items.confined h i (Fragment.mem_code_of_target? hi htarget) target htarget with
    ⟨o, rfl, ho⟩ | ⟨exits, hexits, -⟩
  · exact ⟨o, rfl, by rwa [hoffset, Nat.zero_add] at ho⟩
  · cases hloop.symm.trans hexits

/-- The branches of a method go to its offsets or just behind its last one, and the latter exactly
if a branch goes around its last return. -/
theorem Method.Means.inside_iff {options : Options} {body : Items} {m : Method}
    (h : Method.Means options body m) :
    (∀ i ∈ m.code, ∀ target, i.target? = some target →
      ∃ o, target = .offset o ∧ o ≤ m.code.size) ∧
    ((∀ i ∈ m.code, ∀ o, i.target? = some (.offset o) → o < m.code.size) ↔
      body.overruns = false) := by
  obtain ⟨σ, f, parameters, hf, hm, -, -, hoffset, hloop⟩ := h
  have hcode : m.code = f.closedCode.toArray := congrArg Method.code hm
  have hoverruns := body.overruns_iff hloop hf
  rw [hoffset] at hoverruns
  simp only [hcode, List.mem_toArray, List.size_toArray, ← Bool.not_eq_true, ← hoverruns]
  have hle : f.code.length ≤ f.closedCode.length := by
    unfold Fragment.closedCode
    split <;> simp
  refine ⟨fun i hi target htarget => ?_, fun hinside ⟨hlast, i, hi, htarget⟩ => ?_, ?_⟩
  · obtain ⟨o, rfl, ho⟩ := Items.target_le hf hoffset hloop hi htarget
    exact ⟨o, rfl, Nat.le_trans ho hle⟩
  · -- no return was added, so the end of the fragment is that of the method
    have hlt := hinside i (f.code_subset_closedCode hi) _ htarget
    simp [Fragment.closedCode, hlast] at hlt
  · intro hnot i hi o htarget
    obtain ⟨o', ho', hle'⟩ := Items.target_le hf hoffset hloop hi htarget
    obtain rfl := Target.offset.inj ho'
    unfold Fragment.closedCode
    split
    · -- the source put a return last, so the branch does not go around it
      next hlast =>
      refine Nat.lt_of_le_of_ne hle' fun heq => hnot ⟨hlast, i, ?_, ?_⟩
      · exact Fragment.mem_code_of_target? hi htarget
      · rw [htarget, heq, Nat.zero_add]
    · simp only [List.length_append, List.length_singleton]
      omega

/-- **Which methods are left by a branch.**  A source that compiles is the text of a tree, and its
methods are what the tree and the bodies in it stand for.  In each of them every branch goes to
an offset, and not further than just behind the last instruction; and all of them stay inside
exactly if the last instructions do not come from an `if` that ends in a `return`. -/
theorem branches_stay_inside_iff {options : Options} {source : String} {c : Compilation}
    (h : compile options source = .ok c) :
    ∃ (items : Items) (tokens : List Token), Writes source items tokens ∧ items.closed = true ∧
      items.program? options = some c.program ∧
      List.Forall₂ (fun (body : Items) (m : Method) =>
        (∀ i ∈ m.code, ∀ target, i.target? = some target →
          ∃ o, target = .offset o ∧ o ≤ m.code.size) ∧
        ((∀ i ∈ m.code, ∀ o, i.target? = some (.offset o) → o < m.code.size) ↔
          body.overruns = false)) (items :: items.bodies) c.program.methods.toList := by
  obtain ⟨items, tokens, hwrites, hclosed, hprogram, -⟩ := compile_eq_ok_iff.mp h
  refine ⟨items, tokens, hwrites, hclosed, hprogram, ?_⟩
  exact (Items.means_program hprogram).imp fun body m hm => hm.inside_iff

/-- The program of a condition that is followed by a return and nothing else.  It has three
instructions, and a branch to the fourth. -/
def overrunProgram : Program where
  name := "MyProgram"
  methods := #[{
    name := "main"
    returnType := .void
    code := #[.plain (.loadBool true), .branchIfFalse (.offset 3), .plain .ret]
    labels := #[.bound 3] }]

theorem compile_overrun : compile {} "if (true) return;" = .ok ⟨overrunProgram, {}⟩ :=
  eq_ok_of_toOption (by decide +kernel)

/-- If the condition fails, the program runs past its last instruction, since there is none at the
target. -/
theorem branch_leaves_method : ∃ c, compile {} "if (true) return;" = .ok c ∧
    ∃ m ∈ c.program.methods, ∃ i ∈ m.code, i.target? = some (.offset m.code.size) :=
  ⟨_, compile_overrun, _, Array.mem_singleton_self _, .branchIfFalse (.offset 3), by simp, rfl⟩

/-- The criterion tells so from the tree: the last instruction comes from a return that a branch
goes around. -/
theorem branches_stay_inside_iff_overrun :
    compile {} "if (true) return;" = .ok ⟨overrunProgram, {}⟩ ∧
    ∃ (items : Items) (tokens : List Token), Writes "if (true) return;" items tokens ∧
      items.program? {} = some overrunProgram ∧ items.overruns = true := by
  obtain ⟨items, tokens, hwrites, -, hprogram, hmethods⟩ := branches_stay_inside_iff compile_overrun
  refine ⟨compile_overrun, items, tokens, hwrites, hprogram, ?_⟩
  obtain ⟨-, hiff⟩ := (List.forall₂_cons.mp hmethods).1
  refine (Bool.not_eq_false _).mp fun hfalse => ?_
  have hlt := hiff.mpr hfalse (.branchIfFalse (.offset 3)) (by simp) 3 rfl
  exact Nat.lt_irrefl 3 hlt

end OnePass
