import OnePass.Proofs.Expressions

/-!
# Branches that wait for a label

A branch forward is written before its offset is known.  It names a label until the
label gets its offset, and then all branches that wait for the label are redirected.
Here it is shown that this gives the branches of the reference translation, which knows
all offsets beforehand.

## Main definitions

* `Fragment.redirect` — a fragment after a label has got its offset.

## Main results

* `Items.lower?_redirect` — **redirecting the branches of a fragment gives the fragment at
  the redirected site**, since only the loop around a site is left by branches.
* `State.At.before`, `Stmt.before_of_lower?` — a site does not depend on labels that
  are made later, and what a statement adds does not either.
* `Draft.bindLabel_forward` — what becomes of a branch forward over a fragment.
-/

namespace OnePass

/-! ### Fragments -/

/-- The fragment after a label has got its offset.  Its methods have labels of their own. -/
def Fragment.redirect (l offset : Nat) (f : Fragment) : Fragment :=
  { f with code := f.code.map (Instruction.redirect l offset) }

namespace Fragment

variable (l offset : Nat) (f g : Fragment)

@[simp] theorem redirect_append :
    (f ++ g).redirect l offset = f.redirect l offset ++ g.redirect l offset := by
  show Fragment.mk _ _ _ _ _ = Fragment.mk _ _ _ _ _
  simp [redirect]

@[simp] theorem methods_redirect : (f.redirect l offset).methods = f.methods := rfl

@[simp] theorem redirect_plain (operations : List Operation) :
    (plain operations).redirect l offset = .plain operations := by
  simp [redirect, plain, Function.comp_def]

@[simp] theorem redirect_jump (operations : List Operation) (branch : Instruction)
    (labels : List Nat) :
    (jump operations branch labels).redirect l offset =
      .jump operations (branch.redirect l offset) labels := by
  simp [redirect, jump, Function.comp_def]

variable {l offset} in
/-- Redirecting what stands under a condition that does not depend on labels. -/
theorem redirect_guard {c c' : Prop} [Decidable c] [Decidable c'] {f g : Fragment} (hc : c ↔ c')
    (hf : g.redirect l offset = f) :
    (if c then some f else none) = (if c' then some g else none).map (redirect l offset) := by
  by_cases h : c
  · rw [if_pos h, if_pos (hc.mp h), Option.map_some, hf]
  · rw [if_neg h, if_neg (mt hc.mpr h), Option.map_none]

end Fragment

/-! ### Sites -/

@[simp] theorem Exits.target_redirect (l offset : Nat) (exits : Exits) (exit : Exit) :
    (exits.redirect l offset).target exit = (exits.target exit).redirect l offset := by
  cases exit <;> rfl

namespace Site

variable (l offset : Nat) (σ : Site)

@[simp] theorem past_redirect (f : Fragment) :
    (σ.redirect l offset).past f = (σ.past f).redirect l offset := rfl

@[simp] theorem past_fragment_redirect (f : Fragment) :
    σ.past (f.redirect l offset) = σ.past f := by
  simp [past, Fragment.redirect]

@[simp] theorem redirect_skip (condition : List Operation) (size : Nat) :
    (σ.redirect l offset).skip condition size = σ.skip condition size := rfl

@[simp] theorem redirect_leap (size : Nat) : (σ.redirect l offset).leap size = σ.leap size := rfl

@[simp] theorem redirect_round (condition : List Operation) (size : Nat) :
    (σ.redirect l offset).round condition size = σ.round condition size := rfl

@[simp] theorem redirect_exits (condition : List Operation) (size : Nat) :
    (σ.redirect l offset).exits condition size = σ.exits condition size := rfl

@[simp] theorem redirect_again : (σ.redirect l offset).again = σ.again := rfl

@[simp] theorem loop_redirect :
    (σ.redirect l offset).loop = σ.loop.map (Exits.redirect l offset) := rfl

@[simp] theorem body_redirect (returnType : Ty) (x : String) (parameters : List Declarator) :
    (σ.redirect l offset).body returnType x parameters = σ.body returnType x parameters := rfl

@[simp] theorem load?_redirect (x : String) : (σ.redirect l offset).load? x = σ.load? x := rfl

/-- A loop is left for offsets in the reference translation, so labels are nothing to it. -/
theorem within_redirect_exits (condition : List Operation) (size : Nat) (σ' : Site) :
    (σ'.within (σ.exits condition size)).redirect l offset = σ'.within (σ.exits condition size) :=
  rfl

@[simp] theorem redirect_within (exits : Exits) :
    (σ.redirect l offset).within exits = σ.within exits := rfl

@[simp] theorem skip_redirect (condition : List Operation) (size : Nat) :
    (σ.skip condition size).redirect l offset = σ.skip condition size := by
  simp [skip, Instruction.redirect]

@[simp] theorem leap_redirect (size : Nat) : (σ.leap size).redirect l offset = σ.leap size := rfl

@[simp] theorem round_redirect (condition : List Operation) (size : Nat) :
    (σ.round condition size).redirect l offset = σ.round condition size := by
  simp [round, Instruction.redirect]

@[simp] theorem again_redirect : σ.again.redirect l offset = σ.again := rfl

end Site

theorem Expr.lower?_redirect (l offset : Nat) (σ : Site) {r : Rung} (e : Expr r) :
    e.lower? (σ.redirect l offset) = e.lower? σ :=
  lower?_congr σ (σ.redirect l offset) (fun _ => rfl) (fun _ => rfl) e

theorem Expr.lowerTo?_redirect (l offset : Nat) (σ : Site) (expected : Ty) {r : Rung} (e : Expr r) :
    e.lowerTo? (σ.redirect l offset) expected = e.lowerTo? σ expected := by
  unfold lowerTo?
  rw [lower?_redirect]

theorem Expr.lowerTo?_within (σ : Site) (exits : Exits) (expected : Ty) {r : Rung} (e : Expr r) :
    e.lowerTo? (σ.within exits) expected = e.lowerTo? σ expected := by
  unfold lowerTo?
  rw [lower?_congr σ (σ.within exits) (fun _ => rfl) (fun _ => rfl) e]

mutual

/-- Redirecting the branches of a statement.  Only its branches out of the loop around can wait for
a label, as all others have offsets from the beginning. -/
theorem Stmt.lower?_redirect (l offset : Nat) : ∀ (t : Stmt) (σ : Site),
    t.lower? (σ.redirect l offset) = (t.lower? σ).map (Fragment.redirect l offset)
  | .block items, σ => items.lower?_redirect l offset σ
  | .branch condition body, σ => by
    simp only [Stmt.lower?, Expr.lowerTo?_redirect]
    cases condition.lowerTo? σ .bool with
    | none => rfl
    | some code =>
      -- the condition and its branch have offsets, so only the body is redirected
      simp only [Option.bind_eq_bind, Option.bind_some, Site.redirect_skip, Site.past_redirect,
        body.lower?_redirect l offset]
      cases body.lower? (σ.past (σ.skip code body.size)) <;> simp
  | .choice condition body other, σ => by
    simp only [Stmt.lower?, Expr.lowerTo?_redirect]
    cases condition.lowerTo? σ .bool with
    | none => rfl
    | some code =>
      simp only [Option.bind_eq_bind, Option.bind_some, Site.redirect_skip, Site.past_redirect,
        body.lower?_redirect l offset]
      cases body.lower? (σ.past (σ.skip code (body.size + 1))) with
      | none => rfl
      | some f =>
        simp only [Option.map_some, Option.bind_some, Site.past_append,
          Site.past_fragment_redirect, Site.redirect_leap, other.lower?_redirect l offset]
        generalize other.lower? _ = g
        cases g <;> simp
  | .loop condition body, σ => by
    simp only [Stmt.lower?, Expr.lowerTo?_redirect]
    cases condition.lowerTo? σ .bool with
    | none => rfl
    | some code =>
      -- the loop is left for offsets, so its body does not change
      have hbody := body.lower?_redirect l offset
        ((σ.past (σ.round code body.size)).within (σ.exits code body.size))
      rw [Site.within_redirect_exits] at hbody
      simp only [Option.bind_eq_bind, Option.bind_some, Site.redirect_round, Site.past_redirect,
        Site.redirect_exits, Site.redirect_within, Site.redirect_again]
      generalize body.lower? _ = g at hbody
      cases g with
      | none => rfl
      | some g =>
        have hbody : g = g.redirect l offset := Option.some.inj hbody
        simp [← hbody]
  | .expression e, σ => by
    simp only [Stmt.lower?, Expr.lower?_redirect]
    cases e.lower? σ <;> simp
  | .empty, _ => rfl
  | .print none, _ => rfl
  | .print (some x), σ => by
    simp only [Stmt.lower?, Site.load?_redirect]
    cases σ.load? x <;> simp
  | .bug body, σ => body.lower?_redirect l offset σ
  | .ret none, σ => by
    simp only [Stmt.lower?]
    exact Fragment.redirect_guard Iff.rfl (Fragment.redirect_plain l offset _)
  | .ret (some e), σ => by
    simp only [Stmt.lower?, Expr.lowerTo?_redirect]
    show (e.lowerTo? σ σ.returnType).bind _ = _
    cases e.lowerTo? σ σ.returnType with
    | none => rfl
    | some code =>
      exact Fragment.redirect_guard Iff.rfl (Fragment.redirect_plain l offset _)
  | .leave exit, σ => by
    simp only [Stmt.lower?, Site.loop_redirect]
    cases σ.loop with
    | none => rfl
    | some exits =>
      refine Fragment.redirect_guard Iff.rfl ?_
      rw [Fragment.redirect_jump, Instruction.redirect, Exits.target_redirect]

theorem Item.lower?_redirect (l offset : Nat) : ∀ (item : Item) (σ : Site),
    item.lower? (σ.redirect l offset) = (item.lower? σ).map (Fragment.redirect l offset)
  | .field type x, σ => by
    simp only [Item.lower?]
    exact Fragment.redirect_guard Iff.rfl rfl
  | .method type x parameters comma body, σ => by
    simp only [Item.lower?, Site.body_redirect]
    cases body.lower? (σ.body type.ty x parameters) with
    | none => rfl
    | some f =>
      exact Fragment.redirect_guard Iff.rfl rfl
  | .statement t, σ => t.lower?_redirect l offset σ

/-- **Redirecting the branches of a fragment gives the fragment at the redirected site.**  So
binding a label after the fragment is like having known its offset before. -/
theorem Items.lower?_redirect (l offset : Nat) : ∀ (items : Items) (σ : Site),
    items.lower? (σ.redirect l offset) = (items.lower? σ).map (Fragment.redirect l offset)
  | .nil, _ => rfl
  | .cons item rest, σ => by
    simp only [Items.lower?, item.lower?_redirect l offset]
    cases item.lower? σ with
    | none => rfl
    | some f =>
      simp only [Option.map_some, Option.bind_eq_bind, Option.bind_some,
        Site.past_fragment_redirect, Site.past_redirect, rest.lower?_redirect l offset]
      cases rest.lower? (σ.past f) <;> simp

end

/-- The exits of a loop at the site before the label behind the loop, the one after `l`, has
got its offset. -/
def Site.pendingExits (σ : Site) (l : Nat) : Exits := ⟨.pending (l + 1), .offset σ.offset⟩

/-- The body of a loop, before and after that.  It is read while the label is still waiting. -/
theorem Stmt.lower?_within_exits (l : Nat) (t : Stmt) (σ : Site) (code : List Operation)
    (size : Nat) :
    t.lower? ((σ.past (σ.round code size)).within (σ.exits code size)) =
      (t.lower? ((σ.within (σ.pendingExits l)).ahead (code.length + 1))).map
        (Fragment.redirect (l + 1) (σ.offset + code.length + 1 + size + 1)) := by
  rw [← t.lower?_redirect, Site.past_round]
  simp [Site.redirect, Site.within, Site.ahead, Site.pendingExits, Site.exits, Exits.redirect,
    Target.redirect]

/-! ### Labels that are made later -/

/-- Of the labels before another one, none is that one, whether they have offsets or not. -/
theorem Draft.target_ne_pending (d : Draft) {k l : Nat} (h : k < l) : d.target k ≠ .pending l := by
  unfold Draft.target
  split
  · simp
  · intro heq
    rw [Target.pending.injEq] at heq
    exact absurd heq (Nat.ne_of_lt h)

/-- The loop around the site is left for labels before `l` only, if for labels. -/
def Site.Before (l : Nat) (σ : Site) : Prop := ∀ k n, l ≤ k → σ.redirect k n = σ

theorem Site.Before.past {l : Nat} {σ : Site} (h : σ.Before l) (f : Fragment) :
    (σ.past f).Before l :=
  fun k n hk => congrArg (Site.past · f) (h k n hk)

theorem Site.Before.ahead {l : Nat} {σ : Site} (h : σ.Before l) (m : Nat) : (σ.ahead m).Before l :=
  fun k n hk => congrArg (Site.ahead · m) (h k n hk)

/-- A site does not depend on labels that are made later, because the loops around were there
first. -/
theorem State.At.before {s : State} {σ : Site} {o : Outline} {d : Draft} (h : s.At σ o d) :
    σ.Before d.labels.length := by
  intro l n hl
  have hloop : σ.loop.map (Exits.redirect l n) = σ.loop := by
    rw [h.fits.loop, Option.map_map]
    cases hhead : s.loops.head? with
    | none => rfl
    | some loop =>
      obtain ⟨⟨-, hbreak⟩, -, hcontinue⟩ := h.steady.loops loop (List.mem_of_head? hhead)
      -- both labels of the loop are older than the one in question
      have hafter := d.target_ne_pending (Nat.lt_of_lt_of_le hbreak hl)
      have hagain := d.target_ne_pending (Nat.lt_of_lt_of_le hcontinue hl)
      simp [Draft.exits, Exits.redirect, Target.redirect_of_ne hafter, Target.redirect_of_ne hagain]
  obtain ⟨options, names, method, returnType, locals, offset, methods, loop⟩ := σ
  exact congrArg (Site.mk options names method returnType locals offset methods) hloop

/-- The branches of the fragment wait for labels before `l` only, if for labels. -/
def Fragment.Before (l : Nat) (f : Fragment) : Prop := ∀ k n, l ≤ k → f.redirect k n = f

theorem Fragment.Before.append {l : Nat} {f g : Fragment} (hf : f.Before l) (hg : g.Before l) :
    (f ++ g).Before l := by
  intro k n hk
  rw [redirect_append, hf k n hk, hg k n hk]

theorem Fragment.Before.target?_ne {l : Nat} {f : Fragment} (h : f.Before l) {k : Nat} (hk : l ≤ k)
    {i : Instruction} (hi : i ∈ f.code) : i.target? ≠ some (.pending k) := by
  intro htarget
  -- redirecting to any offset would show in the code
  have hcode : f.code.map (Instruction.redirect k 0) = f.code.map id := by
    rw [List.map_id]
    exact congrArg Fragment.code (h k 0 hk)
  have hsame : i.redirect k 0 = i := List.map_inj_left.mp hcode i hi
  have hredirect := i.target?_redirect k 0
  rw [hsame, htarget] at hredirect
  simp [Target.redirect] at hredirect

/-- What a statement adds does not depend on labels that are made later than the site it stands
at. -/
theorem Stmt.before_of_lower? {l : Nat} {σ : Site} (h : σ.Before l) {t : Stmt} {f : Fragment}
    (ht : t.lower? σ = some f) : f.Before l := by
  intro k n hk
  have hredirect := t.lower?_redirect k n σ
  rw [h k n hk, ht] at hredirect
  exact (Option.some.inj hredirect).symm

/-- A branch forward over a fragment and some more code goes behind them, once its label has
got its offset there. -/
theorem Draft.bindLabel_forward {d : Draft} {l : Nat} (hl : d.labels.length = l)
    (hcode : ∀ i ∈ d.code, i.target? ≠ some (.pending l)) {branch : Target → Instruction}
    (hbranch : Instruction.IsBranch branch) (operations : List Operation) (f : Fragment)
    (code : List Instruction) (labels : List (Option Nat)) {after : Nat}
    (hafter : d.code.length + (operations.length + 1 + f.code.length + code.length) = after) :
    (((d.grow [] (operations.map .plain ++ [branch (.pending l)]) [none]).extend f).grow
        [] code labels).bindLabel l =
      (d.extend (.jump operations (branch (.offset after)) [after] ++ f.redirect l after)).grow
        [] (code.map (Instruction.redirect l after)) labels := by
  subst hl
  have hpending (n : Nat) : (branch (.pending d.labels.length)).redirect d.labels.length n =
      branch (.offset n) := by
    rcases hbranch with rfl | rfl <;> simp [Instruction.redirect, Target.redirect]
  have hgrow : ((d.grow [] (operations.map .plain ++ [branch (.pending d.labels.length)])
      [none]).extend f).grow [] code labels = d.grow f.locals
        (operations.map .plain ++ [branch (.pending d.labels.length)] ++ f.code ++ code)
        (none :: f.labels.map some ++ labels) := by simp [extend]
  have hlength : d.code.length + (operations.map Instruction.plain ++
      [branch (.pending d.labels.length)] ++ f.code ++ code).length = after := by
    simp only [List.length_append, List.length_map, List.length_singleton]
    omega
  rw [hgrow]
  refine (Draft.grow_bindLabel 0 hcode).trans ?_
  rw [hlength]
  simp [extend, Fragment.jump, Fragment.redirect, hpending, Function.comp_def]

end OnePass
