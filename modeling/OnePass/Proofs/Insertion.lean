import OnePass.Proofs.Redirect
import OnePass.Proofs.Registry

/-!
# Trees with a statement inserted

A simple statement declares nothing, so a tree means the same with such a statement inserted
as without it, apart from code, as long as it means something at all.  What comes behind the
statement does not depend on how much code there is before it.

## Main definitions

* `Fragment.Alike`, `Site.Alike` — the same apart from code and offsets.
* `Simple` — the simple statements.
* `Stmt.Inserts`, `Item.Inserts`, `Items.Inserts` — a tree is another one with a simple
  statement inserted into one of its statement lists.
* `Stmt.Spot`, `Item.Spot`, `Items.Spot` — a place for a statement in a tree, and the site there.
* `Fragment.Leaves` — the branches of a fragment wait for the loop around it only.

## Main results

* `Items.lower?_alike` — **what a tree means hardly depends on the offset**.
* `Items.Inserts.alike` — **a simple statement declares nothing**.
* `Items.Inserts.spot` — where a tree with a simple statement inserted means nothing, the
  statement means nothing at its place.
-/

namespace OnePass

/-! ### Fragments that declare the same -/

/-- The fragments declare the same: the same names, locals of the same types, and methods with the
same headings one by one.  They may differ in code, and so may their methods. -/
structure Fragment.Alike (f g : Fragment) : Prop where
  names : f.names = g.names
  locals : f.locals = g.locals
  headings : f.methods.map Method.heading = g.methods.map Method.heading

namespace Fragment.Alike

variable {f g f' g' : Fragment}

protected theorem refl (f : Fragment) : f.Alike f := ⟨rfl, rfl, rfl⟩

protected theorem symm (h : f.Alike g) : g.Alike f :=
  ⟨h.names.symm, h.locals.symm, h.headings.symm⟩

protected theorem trans {h : Fragment} (hf : f.Alike g) (hg : g.Alike h) : f.Alike h :=
  ⟨hf.names.trans hg.names, hf.locals.trans hg.locals, hf.headings.trans hg.headings⟩

theorem append (h : f.Alike g) (h' : f'.Alike g') : (f ++ f').Alike (g ++ g') := by
  refine ⟨?_, ?_, ?_⟩
  · rw [append_names, append_names, h.names, h'.names]
  · rw [append_locals, append_locals, h.locals, h'.locals]
  · rw [append_methods, append_methods, List.map_append, List.map_append, h.headings, h'.headings]

theorem length_methods (h : f.Alike g) : f.methods.length = g.methods.length := by
  have hlength := congrArg List.length h.headings
  rwa [List.length_map, List.length_map] at hlength

/-- Methods whose bodies declare the same have the same heading, since a heading has no code. -/
theorem heading_method (h : f.Alike g) (x : String) (ty : Ty) (ds : List Declarator) :
    (f.method x ty ds).heading = (g.method x ty ds).heading := by
  simp [Method.heading, method, h.locals]

theorem declaration (h : f.Alike g) (x : String) (ty : Ty) (ds : List Declarator) :
    (f.declaration x ty ds).Alike (g.declaration x ty ds) := by
  refine ⟨rfl, rfl, ?_⟩
  show Method.heading _ :: _ = Method.heading _ :: _
  rw [h.heading_method x ty ds, h.headings]

/-- Branches declare nothing, whatever they test and wherever they go. -/
theorem jump (operations operations' : List Operation) (branch branch' : Instruction)
    (labels labels' : List Nat) :
    (Fragment.jump operations branch labels).Alike (.jump operations' branch' labels') :=
  ⟨rfl, rfl, rfl⟩

theorem redirect (h : f.Alike g) (l offset l' offset' : Nat) :
    (f.redirect l offset).Alike (g.redirect l' offset') :=
  ⟨h.names, h.locals, h.headings⟩

/-- Code declares nothing. -/
theorem plain_append (operations : List Operation) (f : Fragment) :
    (.plain operations ++ f : Fragment).Alike f :=
  ⟨rfl, rfl, rfl⟩

end Fragment.Alike

/-! ### Sites that are alike -/

/-- The sites differ in the offset only, and in where the loop around them is left for.  Whether
there is a loop at all is the same, since that decides whether it can be left. -/
structure Site.Alike (σ τ : Site) : Prop where
  options : σ.options = τ.options
  names : σ.names = τ.names
  method : σ.method = τ.method
  returnType : σ.returnType = τ.returnType
  locals : σ.locals = τ.locals
  methods : σ.methods = τ.methods
  loop : σ.loop.isSome = τ.loop.isSome

namespace Site.Alike

variable {σ τ : Site}

protected theorem refl (σ : Site) : σ.Alike σ := ⟨rfl, rfl, rfl, rfl, rfl, rfl, rfl⟩

protected theorem symm (h : σ.Alike τ) : τ.Alike σ :=
  ⟨h.options.symm, h.names.symm, h.method.symm, h.returnType.symm, h.locals.symm, h.methods.symm,
    h.loop.symm⟩

theorem past (h : σ.Alike τ) {f g : Fragment} (hf : f.Alike g) : (σ.past f).Alike (τ.past g) where
  options := h.options
  names := by
    show σ.names.modifyHead _ = τ.names.modifyHead _
    rw [h.names, hf.names]
  method := h.method
  returnType := h.returnType
  locals := by
    show σ.locals + _ = τ.locals + _
    rw [h.locals, hf.locals]
  methods := by
    show σ.methods + _ = τ.methods + _
    rw [h.methods, hf.length_methods]
  loop := h.loop

theorem ahead (h : σ.Alike τ) (m n : Nat) : (σ.ahead m).Alike (τ.ahead n) :=
  ⟨h.options, h.names, h.method, h.returnType, h.locals, h.methods, h.loop⟩

theorem within (h : σ.Alike τ) (exits exits' : Exits) :
    (σ.within exits).Alike (τ.within exits') :=
  ⟨h.options, h.names, h.method, h.returnType, h.locals, h.methods, rfl⟩

/-- The body of a method begins with offset zero and outside of loops, so nothing is left in which
the two sites differ. -/
theorem body (h : σ.Alike τ) (ty : Ty) (x : String) (ds : List Declarator) :
    σ.body ty x ds = τ.body ty x ds := by
  simp [Site.body, declare, h.options, h.names, h.methods]

theorem field (h : σ.Alike τ) (x : String) (ty : Ty) : σ.field x ty = τ.field x ty := by
  simp [Site.field, h.method, h.locals]

theorem declaredHere (h : σ.Alike τ) (x : String) : σ.declaredHere x = τ.declaredHere x := by
  simp [Site.declaredHere, h.names]

theorem load? (h : σ.Alike τ) (x : String) : σ.load? x = τ.load? x := by
  simp only [Site.load?, Site.find?, Site.reaches, Site.variableType, Site.declaredHere, h.options,
    h.names, h.method]
  rfl

theorem store? (h : σ.Alike τ) (x : String) : σ.store? x = τ.store? x := by
  simp [Site.store?, Site.find?, Site.reaches, h.names, h.method]

theorem lower? (h : σ.Alike τ) {r : Rung} (e : Expr r) : e.lower? σ = e.lower? τ :=
  Expr.lower?_congr τ σ h.load? h.store? e

theorem lowerTo? (h : σ.Alike τ) (ty : Ty) {r : Rung} (e : Expr r) :
    e.lowerTo? σ ty = e.lowerTo? τ ty := by
  unfold Expr.lowerTo?
  rw [h.lower?]

end Site.Alike

mutual

/-- What a statement means hardly depends on the offset: at a site like the one where it means
something it means something too, and declares the same. -/
theorem Stmt.lower?_alike : ∀ (t : Stmt) {σ τ : Site} {f : Fragment}, σ.Alike τ →
    t.lower? σ = some f → ∃ g, t.lower? τ = some g ∧ f.Alike g
  | .block items, _, _, _, hσ, h => items.lower?_alike hσ h
  | .branch condition body, _, _, _, hσ, h => by
    obtain ⟨code, hc, g, hg, rfl⟩ := Stmt.lower?_branch.mp h
    obtain ⟨g', hg', halike⟩ := body.lower?_alike (hσ.past (.jump ..)) hg
    exact ⟨_, Stmt.lower?_branch.mpr ⟨code, hσ.lowerTo? _ _ ▸ hc, g', hg', rfl⟩,
      .append (.jump ..) halike⟩
  | .choice condition body other, _, _, _, hσ, h => by
    obtain ⟨code, hc, g, hg, g₁, hg₁, rfl⟩ := Stmt.lower?_choice.mp h
    obtain ⟨g', hg', halike⟩ := body.lower?_alike (hσ.past (.jump ..)) hg
    obtain ⟨g₁', hg₁', halike₁⟩ :=
      -- what the other branch finds in front of it depends on the first one, so the two come in
      -- order
      other.lower?_alike (hσ.past (.append (.append (.jump ..) halike) (.jump ..))) hg₁
    exact ⟨_, Stmt.lower?_choice.mpr ⟨code, hσ.lowerTo? _ _ ▸ hc, g', hg', g₁', hg₁', rfl⟩,
      .append (.append (.append (.jump ..) halike) (.jump ..)) halike₁⟩
  | .loop condition body, _, _, _, hσ, h => by
    obtain ⟨code, hc, g, hg, rfl⟩ := Stmt.lower?_loop.mp h
    obtain ⟨g', hg', halike⟩ := body.lower?_alike ((hσ.past (.jump ..)).within _ _) hg
    exact ⟨_, Stmt.lower?_loop.mpr ⟨code, hσ.lowerTo? _ _ ▸ hc, g', hg', rfl⟩,
      .append (.append (.jump ..) halike) (.jump ..)⟩
  | .expression e, _, _, _, hσ, h => by
    obtain ⟨ty, code, he, rfl⟩ := Stmt.lower?_expression.mp h
    exact ⟨_, Stmt.lower?_expression.mpr ⟨ty, code, hσ.lower? _ ▸ he, rfl⟩, .refl _⟩
  | .empty, _, _, _, _, h => ⟨_, h, .refl _⟩
  | .print none, _, _, _, _, h => ⟨_, h, .refl _⟩
  | .print (some x), _, _, _, hσ, h => by
    obtain ⟨ty, operation, hload, rfl⟩ := Stmt.lower?_print.mp h
    exact ⟨_, Stmt.lower?_print.mpr ⟨ty, operation, hσ.load? x ▸ hload, rfl⟩, .refl _⟩
  | .bug body, _, _, _, hσ, h => body.lower?_alike hσ h
  | .ret none, _, _, _, hσ, h => by
    obtain ⟨hstop, rfl⟩ := Stmt.lower?_ret_none.mp h
    rw [hσ.options, hσ.returnType] at hstop
    exact ⟨_, Stmt.lower?_ret_none.mpr ⟨hstop, rfl⟩, .refl _⟩
  | .ret (some e), _, _, _, hσ, h => by
    obtain ⟨code, he, hstop, rfl⟩ := Stmt.lower?_ret_some.mp h
    rw [hσ.lowerTo?, hσ.returnType] at he
    rw [hσ.options, hσ.returnType] at hstop
    exact ⟨_, Stmt.lower?_ret_some.mpr ⟨code, he, hstop, rfl⟩, .refl _⟩
  | .leave exit, _, τ, _, hσ, h => by
    obtain ⟨exits, hloop, hstop, rfl⟩ := Stmt.lower?_leave.mp h
    -- only whether there is a loop matters, not where it is left for
    have hsome := hσ.loop
    rw [hloop] at hsome
    obtain ⟨exits', hexits'⟩ := Option.isSome_iff_exists.mp hsome.symm
    rw [hσ.options] at hstop
    exact ⟨_, Stmt.lower?_leave.mpr ⟨exits', hexits', hstop, rfl⟩, .jump ..⟩

theorem Item.lower?_alike : ∀ (item : Item) {σ τ : Site} {f : Fragment}, σ.Alike τ →
    item.lower? σ = some f → ∃ g, item.lower? τ = some g ∧ f.Alike g
  | .field type x, _, _, _, hσ, h => by
    obtain ⟨hfresh, rfl⟩ := Item.lower?_field.mp h
    rw [hσ.declaredHere] at hfresh
    exact ⟨_, Item.lower?_field.mpr ⟨hfresh, (hσ.field x _).symm⟩, .refl _⟩
  | .method type x parameters comma body, _, _, _, hσ, h => by
    obtain ⟨g, hg, hwell, rfl⟩ := Item.lower?_method.mp h
    rw [hσ.body] at hg
    rw [hσ.declaredHere] at hwell
    exact ⟨_, Item.lower?_method.mpr ⟨g, hg, hwell, rfl⟩, .refl _⟩
  | .statement t, _, _, _, hσ, h => t.lower?_alike hσ h

/-- **What a tree means hardly depends on the offset.**  Offsets stand in branches only, so moving a
statement list can change its code but neither whether it means something nor what it declares. -/
theorem Items.lower?_alike : ∀ (items : Items) {σ τ : Site} {f : Fragment}, σ.Alike τ →
    items.lower? σ = some f → ∃ g, items.lower? τ = some g ∧ f.Alike g
  | .nil, _, _, _, _, h => ⟨_, h, .refl _⟩
  | .cons item rest, _, _, _, hσ, h => by
    obtain ⟨g, hg, g₁, hg₁, rfl⟩ := Items.lower?_cons.mp h
    obtain ⟨g', hg', halike⟩ := item.lower?_alike hσ hg
    obtain ⟨g₁', hg₁', halike₁⟩ := rest.lower?_alike (hσ.past halike) hg₁
    exact ⟨_, Items.lower?_cons.mpr ⟨g', hg', g₁', hg₁', rfl⟩, halike.append halike₁⟩

end

section

variable {σ τ : Site} {f g : Fragment} (hσ : σ.Alike τ)
include hσ

/-- What a statement means at two sites alike declares the same, if it means something at both. -/
theorem Stmt.alike_of_lower? (t : Stmt) (h : t.lower? σ = some f) (h' : t.lower? τ = some g) :
    f.Alike g := by
  obtain ⟨g', hg', halike⟩ := t.lower?_alike hσ h
  rwa [← Option.some.inj (h'.symm.trans hg')] at halike

theorem Item.alike_of_lower? (item : Item) (h : item.lower? σ = some f)
    (h' : item.lower? τ = some g) : f.Alike g := by
  obtain ⟨g', hg', halike⟩ := item.lower?_alike hσ h
  rwa [← Option.some.inj (h'.symm.trans hg')] at halike

theorem Items.alike_of_lower? (items : Items) (h : items.lower? σ = some f)
    (h' : items.lower? τ = some g) : f.Alike g := by
  obtain ⟨g', hg', halike⟩ := items.lower?_alike hσ h
  rwa [← Option.some.inj (h'.symm.trans hg')] at halike

end

/-- If it meant something, so would something else that does not.  This carries failure from a tree
down to the part of it that is to blame. -/
theorem eq_none_of_imp {α β : Type} {x : Option α} {y : Option β} (hy : y = none)
    (h : ∀ a, x = some a → ∃ b, y = some b) : x = none := by
  refine Option.eq_none_iff_forall_ne_some.mpr fun a ha => ?_
  obtain ⟨b, hb⟩ := h a ha
  rw [hy] at hb
  cases hb

/-! ### Simple statements -/

/-- The tokens `ks` among others, where they stand behind the tokens `before`.  Both lists only
count here: how many tokens to pass, and how many to take. -/
def tokensAt (ks before : List Token.Kind) (ts : List Token) : List Token :=
  (ts.drop before.length).take ks.length

theorem tokensAt_append (ks ks' before : List Token.Kind) (ts : List Token) :
    tokensAt ks (ks' ++ before) ts = tokensAt ks before (ts.drop ks'.length) := by
  rw [tokensAt, tokensAt, List.drop_drop, List.length_append]

theorem tokensAt_cons (ks : List Token.Kind) (k : Token.Kind) (before : List Token.Kind)
    (ts : List Token) : tokensAt ks (k :: before) ts = tokensAt ks before (ts.drop 1) :=
  tokensAt_append ks [k] before ts

theorem tokensAt_eq {ks before : List Token.Kind} {front inserted : List Token}
    (hfront : front.map Token.kind = before) (hinserted : inserted.map Token.kind = ks)
    (back : List Token) : tokensAt ks before (front ++ inserted ++ back) = inserted := by
  rw [tokensAt, ← hfront, ← hinserted, List.length_map, List.length_map, List.append_assoc,
    List.drop_left, List.take_left]

/-- The statements without statements in them: an expression without assignments, an assignment of
such a value, a field of type `void`, and the print of a name.  The field is never in order; it is
here as a mistake to be made. -/
inductive Simple
  | expression (e : Expr .relation) (pure : e.pure = true)
  | assignment (x : String) (value : Expr .relation) (pure : value.pure = true)
  | voidField (x : String)
  | print (x : String)

/-- The name of the type `void`. -/
def TypeName.void : TypeName := ⟨.void, .void, rfl⟩

namespace Simple

/-- The statement as an item. -/
def item : Simple → Item
  | .expression e _ => .statement (.expression e)
  | .assignment x value _ =>
    .statement (.expression (.single (.first (.unsigned (.factor (.assign x value))))))
  | .voidField x => .field .void x
  | .print x => .statement (.print (some x))

/-- A statement list with the statement in front.  The semicolon behind an expression is an item
of its own. -/
def before (q : Simple) (rest : Items) : Items :=
  match q with
  | .expression _ _ => .cons q.item (.cons (.statement .empty) rest)
  | _ => .cons q.item rest

/-- The tokens of the statement, with its semicolon. -/
def kinds (q : Simple) : List Token.Kind := (q.before .nil).kinds

/-- Its tokens, where it stands behind the tokens `before` of a source. -/
def tokens (q : Simple) (before : List Token.Kind) (ts : List Token) : List Token :=
  tokensAt q.kinds before ts

theorem tokens_eq {q : Simple} {before : List Token.Kind} {front inserted : List Token}
    (hfront : front.map Token.kind = before) (hinserted : inserted.map Token.kind = q.kinds)
    (back : List Token) : q.tokens before (front ++ inserted ++ back) = inserted :=
  tokensAt_eq hfront hinserted back

theorem kinds_before (q : Simple) (rest : Items) :
    (q.before rest).kinds = q.kinds ++ rest.kinds := by
  cases q <;> simp [before, kinds, Items.kinds]

theorem exists_before_eq (q : Simple) (rest : Items) :
    ∃ items, q.before rest = .cons q.item items := by
  cases q <;> exact ⟨_, rfl⟩

/-- What follows the statement stands by itself: nothing of it would have been read with the
statement. -/
theorem closed_of_before {q : Simple} {rest : Items} (h : (q.before rest).closed = true) :
    rest.closed = true := by
  cases q <;> simp_all [before, Items.closed]

/-- A simple statement that means something is code and nothing else: no names, no locals, no
methods and no labels. -/
theorem exists_plain {q : Simple} {σ : Site} {f : Fragment} (h : q.item.lower? σ = some f) :
    ∃ operations, f = .plain operations := by
  cases q with
  | expression e _ =>
    obtain ⟨ty, code, -, rfl⟩ := Stmt.lower?_expression.mp h
    exact ⟨_, rfl⟩
  | assignment x value _ =>
    obtain ⟨ty, code, -, rfl⟩ := Stmt.lower?_expression.mp h
    exact ⟨_, rfl⟩
  | voidField x =>
    -- a field of this type is never in order
    obtain ⟨⟨-, hvoid⟩, -⟩ := Item.lower?_field.mp h
    exact absurd rfl hvoid
  | print x =>
    obtain ⟨ty, operation, -, rfl⟩ := Stmt.lower?_print.mp h
    exact ⟨_, rfl⟩

/-- What the statement and what follows it mean.  The empty statement behind an expression adds
nothing. -/
theorem lower?_before (q : Simple) (rest : Items) (σ : Site) :
    (q.before rest).lower? σ = (Items.cons q.item rest).lower? σ := by
  cases q with
  | expression e _ =>
    simp [before, item, Items.lower?, Item.lower?, Stmt.lower?]
  | _ => rfl

theorem braced_before (q : Simple) {rest : Items} (h : rest.braced = true) :
    (q.before rest).braced = true := by
  cases q with
  | expression e hpure =>
    simp [before, item, Items.braced, Item.braced, Stmt.braced, Items.beginsEmpty, Item.endsOpen,
      hpure, h]
  | assignment x value hpure =>
    simp [before, item, Items.braced, Item.braced, Stmt.braced, Item.endsOpen, Expr.isAssign,
      Expr.assigns, hpure, h]
  | _ => simp [before, item, Items.braced, Item.braced, Stmt.braced, Item.endsOpen, h]

end Simple

/-! ### Places in a tree -/

variable (q : Simple)

mutual

/-- The second statement is the first one with `q` inserted into one of its statement lists, behind
the tokens `before`. -/
inductive Stmt.Inserts : (before : List Token.Kind) → Stmt → Stmt → Prop
  | block {before : List Token.Kind} {items items' : Items} :
    Items.Inserts before items items' →
    Stmt.Inserts (.symbol .leftBrace :: before) (.block items) (.block items')
  | branch {before : List Token.Kind} {condition : Expr .relation} {body body' : Stmt} :
    Stmt.Inserts before body body' →
    Stmt.Inserts (.keyword .if :: condition.conditionKinds ++ before) (.branch condition body)
      (.branch condition body')
  | body {before : List Token.Kind} {condition : Expr .relation} {body body' other : Stmt} :
    Stmt.Inserts before body body' →
    Stmt.Inserts (.keyword .if :: condition.conditionKinds ++ before)
      (.choice condition body other) (.choice condition body' other)
  | other {before : List Token.Kind} {condition : Expr .relation} {body other other' : Stmt} :
    Stmt.Inserts before other other' →
    Stmt.Inserts
      (.keyword .if :: condition.conditionKinds ++ body.kinds ++ .keyword .else :: before)
      (.choice condition body other) (.choice condition body other')
  | loop {before : List Token.Kind} {condition : Expr .relation} {body body' : Stmt} :
    Stmt.Inserts before body body' →
    Stmt.Inserts (.keyword .while :: condition.conditionKinds ++ before) (.loop condition body)
      (.loop condition body')
  | bug {before : List Token.Kind} {body body' : Stmt} :
    Stmt.Inserts before body body' →
    Stmt.Inserts (.keyword .bug :: before) (.bug body) (.bug body')

/-- The second item is the first one with `q` inserted into a statement list inside of it. -/
inductive Item.Inserts : (before : List Token.Kind) → Item → Item → Prop
  | method {before : List Token.Kind} {type : TypeName} {x : String}
      {parameters : List Declarator} {comma : Bool} {body body' : Items} :
    Items.Inserts before body body' →
    Item.Inserts (Declarator.headerKinds type x parameters comma ++ before)
      (.method type x parameters comma body) (.method type x parameters comma body')
  | statement {before : List Token.Kind} {t t' : Stmt} :
    Stmt.Inserts before t t' → Item.Inserts before (.statement t) (.statement t')

/-- The second list is the first one with `q` inserted, into itself or into one of its items.  An
expression is not parted from its semicolon. -/
inductive Items.Inserts : (before : List Token.Kind) → Items → Items → Prop
  | here {rest : Items} : Items.Inserts [] rest (q.before rest)
  | head {before : List Token.Kind} {item item' : Item} {rest : Items} :
    Item.Inserts before item item' →
    Items.Inserts before (.cons item rest) (.cons item' rest)
  | tail {before : List Token.Kind} {item : Item} {rest rest' : Items} :
    (item.endsOpen = true → rest.beginsEmpty = true → rest'.beginsEmpty = true) →
    Items.Inserts before rest rest' →
    Items.Inserts (item.kinds ++ before) (.cons item rest) (.cons item rest')

end

variable {q}

mutual

theorem Stmt.Inserts.alike : ∀ {t t' : Stmt} {before : List Token.Kind} {σ τ : Site}
    {f g : Fragment}, t.Inserts q before t' → σ.Alike τ → t.lower? σ = some f →
    t'.lower? τ = some g → f.Alike g
  | _, _, _, _, _, _, _, .block hi, hσ, h, h' => hi.alike hσ h h'
  | _, _, _, _, _, _, _, .branch hi, hσ, h, h' => by
    obtain ⟨code, -, g, hg, rfl⟩ := Stmt.lower?_branch.mp h
    obtain ⟨code', -, g', hg', rfl⟩ := Stmt.lower?_branch.mp h'
    exact .append (.jump ..) (hi.alike (hσ.past (.jump ..)) hg hg')
  | .choice _ _ other, _, _, _, _, _, _, .body hi, hσ, h, h' => by
    obtain ⟨code, -, g, hg, g₁, hg₁, rfl⟩ := Stmt.lower?_choice.mp h
    obtain ⟨code', -, g', hg', g₁', hg₁', rfl⟩ := Stmt.lower?_choice.mp h'
    have halike := hi.alike (hσ.past (.jump ..)) hg hg'
    have halike₁ := other.alike_of_lower? (hσ.past (.append (.append (.jump ..) halike) (.jump ..)))
      hg₁ hg₁'
    exact .append (.append (.append (.jump ..) halike) (.jump ..)) halike₁
  | .choice _ body _, _, _, _, _, _, _, .other hi, hσ, h, h' => by
    obtain ⟨code, -, g, hg, g₁, hg₁, rfl⟩ := Stmt.lower?_choice.mp h
    obtain ⟨code', -, g', hg', g₁', hg₁', rfl⟩ := Stmt.lower?_choice.mp h'
    have halike := body.alike_of_lower? (hσ.past (.jump ..)) hg hg'
    have halike₁ := hi.alike (hσ.past (.append (.append (.jump ..) halike) (.jump ..))) hg₁ hg₁'
    exact .append (.append (.append (.jump ..) halike) (.jump ..)) halike₁
  | _, _, _, _, _, _, _, .loop hi, hσ, h, h' => by
    obtain ⟨code, -, g, hg, rfl⟩ := Stmt.lower?_loop.mp h
    obtain ⟨code', -, g', hg', rfl⟩ := Stmt.lower?_loop.mp h'
    have halike := hi.alike ((hσ.past (.jump ..)).within _ _) hg hg'
    exact .append (.append (.jump ..) halike) (.jump ..)
  | _, _, _, _, _, _, _, .bug hi, hσ, h, h' => hi.alike hσ h h'

theorem Item.Inserts.alike : ∀ {item item' : Item} {before : List Token.Kind} {σ τ : Site}
    {f g : Fragment}, item.Inserts q before item' → σ.Alike τ → item.lower? σ = some f →
    item'.lower? τ = some g → f.Alike g
  | _, _, _, _, _, _, _, .method hi, hσ, h, h' => by
    obtain ⟨g, hg, -, rfl⟩ := Item.lower?_method.mp h
    obtain ⟨g', hg', -, rfl⟩ := Item.lower?_method.mp h'
    rw [hσ.body] at hg
    exact (hi.alike (.refl _) hg hg').declaration ..
  | _, _, _, _, _, _, _, .statement hi, hσ, h, h' => hi.alike hσ h h'

/-- **A simple statement declares nothing.**  If a list means something both with such a statement
inserted and without it, the two differ in code only: they declare the same names, locals and
methods. -/
theorem Items.Inserts.alike : ∀ {items items' : Items} {before : List Token.Kind} {σ τ : Site}
    {f g : Fragment}, items.Inserts q before items' → σ.Alike τ → items.lower? σ = some f →
    items'.lower? τ = some g → f.Alike g
  | items, _, _, _, _, _, _, .here, hσ, h, h' => by
    rw [Simple.lower?_before] at h'
    obtain ⟨g, hg, g₁, hg₁, rfl⟩ := Items.lower?_cons.mp h'
    obtain ⟨operations, rfl⟩ := Simple.exists_plain hg
    -- what follows stands further on in the code, at a site that is otherwise the same
    rw [Site.past_plain] at hg₁
    exact (items.alike_of_lower? (hσ.ahead 0 _) h hg₁).trans (.symm (.plain_append operations g₁))
  | .cons _ rest, _, _, _, _, _, _, .head hi, hσ, h, h' => by
    obtain ⟨g, hg, g₁, hg₁, rfl⟩ := Items.lower?_cons.mp h
    obtain ⟨g', hg', g₁', hg₁', rfl⟩ := Items.lower?_cons.mp h'
    have halike := hi.alike hσ hg hg'
    exact halike.append (rest.alike_of_lower? (hσ.past halike) hg₁ hg₁')
  | .cons item _, _, _, _, _, _, _, .tail _ hi, hσ, h, h' => by
    obtain ⟨g, hg, g₁, hg₁, rfl⟩ := Items.lower?_cons.mp h
    obtain ⟨g', hg', g₁', hg₁', rfl⟩ := Items.lower?_cons.mp h'
    have halike := item.alike_of_lower? hσ hg hg'
    exact halike.append (hi.alike (hσ.past halike) hg₁ hg₁')

end

theorem Stmt.Inserts.isBlock_eq {t t' : Stmt} {before : List Token.Kind}
    (h : t.Inserts q before t') : t'.isBlock = t.isBlock := by
  cases h <;> rfl

/-- Nothing is inserted into an expression, so an item with something inserted into it does not end
in one. -/
theorem Item.Inserts.endsOpen_eq_false {item item' : Item} {before : List Token.Kind}
    (h : item.Inserts q before item') : item'.endsOpen = false := by
  cases h with
  | method _ => rfl
  | statement h => cases h <;> rfl

mutual

theorem Stmt.Inserts.braced : ∀ {t t' : Stmt} {before : List Token.Kind}, t.Inserts q before t' →
    t.braced = true → t'.braced = true
  | _, _, _, .block hi, h => hi.braced h
  | _, _, _, .branch hi, h => by
    simp only [Stmt.braced, Bool.and_eq_true, hi.isBlock_eq] at h ⊢
    exact ⟨h.1, hi.braced h.2⟩
  | _, _, _, .body hi, h => by
    simp only [Stmt.braced, Bool.and_eq_true, hi.isBlock_eq] at h ⊢
    exact ⟨⟨⟨h.1.1.1, hi.braced h.1.1.2⟩, h.1.2⟩, h.2⟩
  | _, _, _, .other hi, h => by
    simp only [Stmt.braced, Bool.and_eq_true, hi.isBlock_eq] at h ⊢
    exact ⟨h.1, hi.braced h.2⟩
  | _, _, _, .loop hi, h => by
    simp only [Stmt.braced, Bool.and_eq_true, hi.isBlock_eq] at h ⊢
    exact ⟨h.1, hi.braced h.2⟩
  | _, _, _, .bug hi, h => by
    simp only [Stmt.braced, Bool.and_eq_true, hi.isBlock_eq] at h ⊢
    exact ⟨h.1, hi.braced h.2⟩

theorem Item.Inserts.braced : ∀ {item item' : Item} {before : List Token.Kind},
    item.Inserts q before item' → item.braced = true → item'.braced = true
  | _, _, _, .method hi, h => by
    simp only [Item.braced, Bool.and_eq_true] at h ⊢
    exact ⟨h.1, hi.braced h.2⟩
  | _, _, _, .statement hi, h => hi.braced h

/-- A fully punctuated tree is still one with a simple statement inserted.  The place is never
between an expression and its semicolon. -/
theorem Items.Inserts.braced : ∀ {items items' : Items} {before : List Token.Kind},
    items.Inserts q before items' → items.braced = true → items'.braced = true
  | _, _, _, .here, h => q.braced_before h
  | _, _, _, .head hi, h => by
    simp only [Items.braced, Bool.and_eq_true] at h ⊢
    exact ⟨⟨hi.braced h.1.1, by simp [hi.endsOpen_eq_false]⟩, h.2⟩
  | _, _, _, .tail hopen hi, h => by
    simp only [Items.braced, Bool.and_eq_true, Bool.or_eq_true, Bool.not_eq_true'] at h ⊢
    refine ⟨⟨h.1.1, ?_⟩, hi.braced h.2⟩
    -- the item has its semicolon behind it already, or else it needs none
    rcases h.1.2 with hends | hbegins
    · exact .inl hends
    · exact or_iff_not_imp_left.mpr fun hends => hopen (by simpa using hends) hbegins

end

mutual

/-- The statement stands behind the tokens `before`, and without it the other tokens are those of
the first tree. -/
theorem Stmt.Inserts.kinds_eq : ∀ {t t' : Stmt} {before : List Token.Kind}, t.Inserts q before t' →
    ∃ after, t.kinds = before ++ after ∧ t'.kinds = before ++ q.kinds ++ after
  | _, _, _, .block hi => by
    obtain ⟨after, h, h'⟩ := hi.kinds_eq
    exact ⟨after ++ [.symbol .rightBrace], by simp [Stmt.kinds, h], by simp [Stmt.kinds, h']⟩
  | _, _, _, .branch hi => by
    obtain ⟨after, h, h'⟩ := hi.kinds_eq
    exact ⟨after, by simp [Stmt.kinds, h], by simp [Stmt.kinds, h']⟩
  | .choice _ _ other, _, _, .body hi => by
    obtain ⟨after, h, h'⟩ := hi.kinds_eq
    exact ⟨after ++ .keyword .else :: other.kinds, by simp [Stmt.kinds, h],
      by simp [Stmt.kinds, h']⟩
  | _, _, _, .other hi => by
    obtain ⟨after, h, h'⟩ := hi.kinds_eq
    exact ⟨after, by simp [Stmt.kinds, h], by simp [Stmt.kinds, h']⟩
  | _, _, _, .loop hi => by
    obtain ⟨after, h, h'⟩ := hi.kinds_eq
    exact ⟨after, by simp [Stmt.kinds, h], by simp [Stmt.kinds, h']⟩
  | _, _, _, .bug hi => by
    obtain ⟨after, h, h'⟩ := hi.kinds_eq
    exact ⟨after ++ [.symbol .semicolon], by simp [Stmt.kinds, h], by simp [Stmt.kinds, h']⟩

theorem Item.Inserts.kinds_eq : ∀ {item item' : Item} {before : List Token.Kind},
    item.Inserts q before item' →
    ∃ after, item.kinds = before ++ after ∧ item'.kinds = before ++ q.kinds ++ after
  | _, _, _, .method hi => by
    obtain ⟨after, h, h'⟩ := hi.kinds_eq
    exact ⟨after ++ [.symbol .rightBrace], by simp [Item.kinds, h], by simp [Item.kinds, h']⟩
  | _, _, _, .statement hi => hi.kinds_eq

theorem Items.Inserts.kinds_eq : ∀ {items items' : Items} {before : List Token.Kind},
    items.Inserts q before items' →
    ∃ after, items.kinds = before ++ after ∧ items'.kinds = before ++ q.kinds ++ after
  | items, _, _, .here => ⟨items.kinds, rfl, q.kinds_before items⟩
  | .cons _ rest, _, _, .head hi => by
    obtain ⟨after, h, h'⟩ := hi.kinds_eq
    exact ⟨after ++ rest.kinds, by simp [Items.kinds, h], by simp [Items.kinds, h']⟩
  | _, _, _, .tail _ hi => by
    obtain ⟨after, h, h'⟩ := hi.kinds_eq
    exact ⟨after, by simp [Items.kinds, h], by simp [Items.kinds, h']⟩

end

/-! ### Places for statements -/

section

variable (stmt : List Token.Kind)

mutual

/-- In the statement, which stands at the site `σ`, there is a place for the tokens `stmt` behind
the tokens `before` and in front of the tokens `after`.  It is in a statement list, and the site
there is like `τ`.  What stands in front of the place means something, so that there is a site
behind it. -/
inductive Stmt.Spot : (σ : Site) → Stmt → (τ : Site) → (before after : List Token.Kind) → Prop
  | block {σ τ : Site} {before after : List Token.Kind} {items : Items} :
    Items.Spot σ items τ before after →
    Stmt.Spot σ (.block items) τ (.symbol .leftBrace :: before) (after ++ [.symbol .rightBrace])
  | branch {σ τ : Site} {before after : List Token.Kind} {condition : Expr .relation}
      {body : Stmt} :
    Stmt.Spot σ body τ before after →
    Stmt.Spot σ (.branch condition body) τ (.keyword .if :: condition.conditionKinds ++ before)
      after
  | body {σ τ : Site} {before after : List Token.Kind} {condition : Expr .relation}
      {body other : Stmt} :
    body.goesOn (.keyword .else) = false → other.closed = true →
    Stmt.Spot σ body τ before after →
    Stmt.Spot σ (.choice condition body other) τ
      (.keyword .if :: condition.conditionKinds ++ before) (after ++ .keyword .else :: other.kinds)
  | other {σ τ : Site} {before after : List Token.Kind} {condition : Expr .relation}
      {body other : Stmt} {g : Fragment} :
    body.goesOn (.keyword .else) = false → body.closed = true → body.lower? σ = some g →
    Stmt.Spot (σ.past g) other τ before after →
    Stmt.Spot σ (.choice condition body other) τ
      (.keyword .if :: condition.conditionKinds ++ body.kinds ++ .keyword .else :: before) after
  | loop {σ τ : Site} {before after : List Token.Kind} {condition : Expr .relation}
      {body : Stmt} (exits : Exits) :
    Stmt.Spot (σ.within exits) body τ before after →
    Stmt.Spot σ (.loop condition body) τ (.keyword .while :: condition.conditionKinds ++ before)
      after
  | bug {σ τ : Site} {before after : List Token.Kind} {body : Stmt} :
    Stmt.Spot σ body τ before after →
    Stmt.Spot σ (.bug body) τ (.keyword .bug :: before) (after ++ [.symbol .semicolon])

/-- The same for an item: the place is in the body of a method, or in a statement. -/
inductive Item.Spot : (σ : Site) → Item → (τ : Site) → (before after : List Token.Kind) → Prop
  | method {σ τ : Site} {before after : List Token.Kind} {type : TypeName} {x : String}
      {parameters : List Declarator} {comma : Bool} {body : Items} :
    Items.Spot (σ.body type.ty x parameters) body τ before after →
    Item.Spot σ (.method type x parameters comma body) τ
      (Declarator.headerKinds type x parameters comma ++ before) (after ++ [.symbol .rightBrace])
  | statement {σ τ : Site} {before after : List Token.Kind} {t : Stmt} :
    Stmt.Spot σ t τ before after → Item.Spot σ (.statement t) τ before after

/-- The same for a statement list.  No item goes on with what follows it then. -/
inductive Items.Spot : (σ : Site) → Items → (τ : Site) → (before after : List Token.Kind) → Prop
  | here {σ : Site} {rest : Items} : rest.closed = true → Items.Spot σ rest σ [] rest.kinds
  | head {σ τ : Site} {before after : List Token.Kind} {item : Item} {rest : Items} :
    (∀ k ∈ rest.kinds.head?, item.goesOn k = false) → rest.closed = true →
    Item.Spot σ item τ before after →
    Items.Spot σ (.cons item rest) τ before (after ++ rest.kinds)
  | tail {σ τ : Site} {before after : List Token.Kind} {item : Item} {rest : Items}
      {g : Fragment} :
    (∀ k ∈ (before ++ stmt).head?, item.goesOn k = false) → item.closed = true →
    item.lower? σ = some g → Items.Spot (σ.past g) rest τ before after →
    Items.Spot σ (.cons item rest) τ (item.kinds ++ before) after

end

end

theorem Stmt.Inserts.goesOn_eq (k : Token.Kind) {t t' : Stmt} {before : List Token.Kind}
    (h : t.Inserts q before t') : t'.goesOn k = t.goesOn k := by
  cases h with
  | block _ => rfl
  | branch hi => rw [Stmt.goesOn, Stmt.goesOn, hi.goesOn_eq k]
  | body _ => rfl
  | other hi => exact hi.goesOn_eq k
  | loop hi => exact hi.goesOn_eq k
  | bug _ => rfl

/-- Only what is inside of braces changes, and whether reading goes on behind an item is told by its
end. -/
theorem Item.Inserts.goesOn_eq (k : Token.Kind) {item item' : Item} {before : List Token.Kind}
    (h : item.Inserts q before item') : item'.goesOn k = item.goesOn k := by
  cases h with
  | method _ => rfl
  | statement h => exact h.goesOn_eq k

theorem Items.closed_cons {item : Item} {rest : Items}
    (h : (Items.cons item rest).closed = true) :
    (∀ k ∈ rest.kinds.head?, item.goesOn k = false) ∧ item.closed = true ∧ rest.closed = true := by
  simp only [Items.closed, Bool.and_eq_true, Bool.not_eq_true'] at h
  obtain ⟨⟨hnext, hitem⟩, hrest⟩ := h
  refine ⟨fun k hk => ?_, hitem, hrest⟩
  rwa [Option.mem_def.mp hk] at hnext

/-- What follows a simple statement does not depend on it, but for the offset. -/
theorem Site.Alike.past_simple {σ : Site} {g : Fragment} (h : q.item.lower? σ = some g) :
    σ.Alike (σ.past g) := by
  obtain ⟨operations, rfl⟩ := Simple.exists_plain h
  rw [Site.past_plain]
  exact (Site.Alike.refl σ).ahead 0 _

mutual

theorem Stmt.Inserts.spot : ∀ {t t' : Stmt} {before : List Token.Kind} {σ σ' : Site}
    {f : Fragment}, t.Inserts q before t' → σ.Alike σ' → t'.closed = true →
    t.lower? σ' = some f → t'.lower? σ' = none →
    ∃ τ after, t.Spot q.kinds σ τ before after ∧ t'.kinds = before ++ q.kinds ++ after ∧
      q.item.lower? τ = none
  | _, _, _, _, _, _, .block hi, hσ, hclosed, hlower, hnone => by
    obtain ⟨τ, after, hspot, hkinds, hq⟩ := hi.spot hσ hclosed hlower hnone
    exact ⟨τ, _, .block hspot, by simp [Stmt.kinds, hkinds], hq⟩
  | _, _, _, _, _, _, .branch hi, hσ, hclosed, hlower, hnone => by
    obtain ⟨code, hcode, g, hg, rfl⟩ := Stmt.lower?_branch.mp hlower
    rw [Site.past_skip] at hg
    -- the condition means something as before, so it is the body that does not
    have hbody := eq_none_of_imp hnone fun g' hg' =>
      ⟨_, Stmt.lower?_branch.mpr ⟨code, hcode, g', Site.past_skip .. ▸ hg', rfl⟩⟩
    obtain ⟨τ, after, hspot, hkinds, hq⟩ := hi.spot (hσ.ahead 0 _) hclosed hg hbody
    exact ⟨τ, _, .branch hspot, by simp [Stmt.kinds, hkinds], hq⟩
  | .choice _ _ other, .choice _ _ _, _, _, σ', _, .body hi, hσ, hclosed, hlower, hnone => by
    obtain ⟨code, hcode, g, hg, g₁, hg₁, rfl⟩ := Stmt.lower?_choice.mp hlower
    rw [Site.past_skip] at hg
    -- if the body meant something, the other branch behind it would too, since the body declares
    -- the same with the statement inserted as without it
    have hbody := eq_none_of_imp hnone fun g' hg' => by
      obtain ⟨g₁', hg₁', -⟩ := other.lower?_alike ((Site.Alike.refl σ').past
        (.append (.append (.jump ..) (hi.alike (.refl _) hg hg')) (.jump ..))) hg₁
      exact ⟨_, Stmt.lower?_choice.mpr ⟨code, hcode, g', Site.past_skip .. ▸ hg', g₁', hg₁', rfl⟩⟩
    simp only [Stmt.closed, Bool.and_eq_true, Bool.not_eq_true', hi.goesOn_eq] at hclosed
    obtain ⟨τ, after, hspot, hkinds, hq⟩ := hi.spot (hσ.ahead 0 _) hclosed.1.2 hg hbody
    exact ⟨τ, _, .body hclosed.1.1 hclosed.2 hspot, by simp [Stmt.kinds, hkinds], hq⟩
  | .choice _ body _, .choice _ _ _, _, _, _, _, .other hi, hσ, hclosed, hlower, hnone => by
    obtain ⟨code, hcode, g, hg, g₁, hg₁, rfl⟩ := Stmt.lower?_choice.mp hlower
    have hother := eq_none_of_imp hnone fun g₁' hg₁' =>
      ⟨_, Stmt.lower?_choice.mpr ⟨code, hcode, g, hg, g₁', hg₁', rfl⟩⟩
    rw [Site.past_append, Site.past_append, Site.past_skip, Site.past_leap] at hg₁ hother
    rw [Site.past_skip] at hg
    -- the place is described at the site `σ`, and the first branch means something there as well
    obtain ⟨g₀, hg₀, halike⟩ := body.lower?_alike (hσ.ahead 0 _).symm hg
    simp only [Stmt.closed, Bool.and_eq_true, Bool.not_eq_true'] at hclosed
    obtain ⟨τ, after, hspot, hkinds, hq⟩ := hi.spot (((hσ.ahead 0 _).past halike.symm).ahead 0 1)
      hclosed.2 hg₁ hother
    exact ⟨τ, _, .other hclosed.1.1 hclosed.1.2 hg₀ hspot, by simp [Stmt.kinds, hkinds], hq⟩
  | .loop _ body, .loop _ _, _, σ, _, _, .loop hi, hσ, hclosed, hlower, hnone => by
    obtain ⟨code, hcode, g, hg, rfl⟩ := Stmt.lower?_loop.mp hlower
    have hbody := eq_none_of_imp hnone fun g' hg' =>
      ⟨_, Stmt.lower?_loop.mpr ⟨code, hcode, g', hg', rfl⟩⟩
    rw [Site.past_round] at hg hbody
    obtain ⟨g', hg', -⟩ := body.lower?_alike ((Site.Alike.refl _).within _ _) hg
    obtain ⟨τ, after, hspot, hkinds, hq⟩ :=
      hi.spot ((hσ.ahead 0 _).within (σ.exits code body.size) _) hclosed hg' hbody
    exact ⟨τ, _, .loop _ hspot, by simp [Stmt.kinds, hkinds], hq⟩
  | _, _, _, _, _, _, .bug hi, hσ, hclosed, hlower, hnone => by
    obtain ⟨τ, after, hspot, hkinds, hq⟩ := hi.spot hσ hclosed hlower hnone
    exact ⟨τ, _, .bug hspot, by simp [Stmt.kinds, hkinds], hq⟩

theorem Item.Inserts.spot : ∀ {item item' : Item} {before : List Token.Kind} {σ σ' : Site}
    {f : Fragment}, item.Inserts q before item' → σ.Alike σ' → item'.closed = true →
    item.lower? σ' = some f → item'.lower? σ' = none →
    ∃ τ after, item.Spot q.kinds σ τ before after ∧ item'.kinds = before ++ q.kinds ++ after ∧
      q.item.lower? τ = none
  | _, _, _, _, _, _, .method hi, hσ, hclosed, hlower, hnone => by
    obtain ⟨g, hg, hwell, rfl⟩ := Item.lower?_method.mp hlower
    have hbody := eq_none_of_imp hnone fun g' hg' =>
      ⟨_, Item.lower?_method.mpr ⟨g', hg', hwell, rfl⟩⟩
    rw [← hσ.body] at hg hbody
    obtain ⟨τ, after, hspot, hkinds, hq⟩ := hi.spot (.refl _) hclosed hg hbody
    exact ⟨τ, _, .method hspot, by simp [Item.kinds, hkinds], hq⟩
  | _, _, _, _, _, _, .statement hi, hσ, hclosed, hlower, hnone => by
    obtain ⟨τ, after, hspot, hkinds, hq⟩ := hi.spot hσ hclosed hlower hnone
    exact ⟨τ, _, .statement hspot, hkinds, hq⟩

/-- **Where a tree with a simple statement inserted means nothing, the statement means nothing at
its place.**  Every part of the tree without it means something and still does with it, so there is
nothing else to blame. -/
theorem Items.Inserts.spot : ∀ {items items' : Items} {before : List Token.Kind} {σ σ' : Site}
    {f : Fragment}, items.Inserts q before items' → σ.Alike σ' → items'.closed = true →
    items.lower? σ' = some f → items'.lower? σ' = none →
    ∃ τ after, items.Spot q.kinds σ τ before after ∧
      items'.kinds = before ++ q.kinds ++ after ∧ q.item.lower? τ = none
  | items, _, _, σ, σ', _, .here, hσ, hclosed, hlower, hnone => by
    -- if the statement meant something, so would the list, since what follows it hardly depends on
    -- the offset
    have hq := eq_none_of_imp hnone fun g hg => by
      obtain ⟨g', hg', -⟩ := items.lower?_alike (Site.Alike.past_simple hg) hlower
      exact ⟨_, (q.lower?_before items σ').trans (Items.lower?_cons.mpr ⟨g, hg, g', hg', rfl⟩)⟩
    refine ⟨σ, _, .here (Simple.closed_of_before hclosed), q.kinds_before items, ?_⟩
    refine eq_none_of_imp hq fun g hg => ?_
    obtain ⟨g', hg', -⟩ := q.item.lower?_alike hσ hg
    exact ⟨g', hg'⟩
  | .cons _ rest, .cons _ _, _, _, σ', _, .head hi, hσ, hclosed, hlower, hnone => by
    obtain ⟨g, hg, g₁, hg₁, rfl⟩ := Items.lower?_cons.mp hlower
    have hitem := eq_none_of_imp hnone fun g' hg' => by
      obtain ⟨g₁', hg₁', -⟩ :=
        rest.lower?_alike ((Site.Alike.refl σ').past (hi.alike (.refl σ') hg hg')) hg₁
      exact ⟨_, Items.lower?_cons.mpr ⟨g', hg', g₁', hg₁', rfl⟩⟩
    obtain ⟨hnext, hclosed, hclosed'⟩ := Items.closed_cons hclosed
    obtain ⟨τ, after, hspot, hkinds, hq⟩ := hi.spot hσ hclosed hg hitem
    refine ⟨τ, _, .head (fun k hk => ?_) hclosed' hspot, by simp [Items.kinds, hkinds], hq⟩
    exact (hi.goesOn_eq k).symm.trans (hnext k hk)
  | .cons item _, .cons _ _, _, _, _, _, .tail _ hi, hσ, hclosed, hlower, hnone => by
    obtain ⟨g, hg, g₁, hg₁, rfl⟩ := Items.lower?_cons.mp hlower
    have hrest := eq_none_of_imp hnone fun g₁' hg₁' =>
      ⟨_, Items.lower?_cons.mpr ⟨g, hg, g₁', hg₁', rfl⟩⟩
    obtain ⟨g₀, hg₀, halike⟩ := item.lower?_alike hσ.symm hg
    obtain ⟨hnext, hclosed, hclosed'⟩ := Items.closed_cons hclosed
    obtain ⟨τ, after, hspot, hkinds, hq⟩ := hi.spot (hσ.past halike.symm) hclosed' hg₁ hrest
    refine ⟨τ, _, .tail (fun k hk => hnext k ?_) hclosed hg₀ hspot,
      by simp [Items.kinds, hkinds], hq⟩
    -- what the item meets is what the rest begins with, which is the inserted statement or stands
    -- before it
    rw [hkinds]
    exact List.mem_head?_append_of_mem_head? hk

end

/-! ### Warnings -/

mutual

/-- How often a statement is marked as worth a look, marks inside of marked statements included. -/
def Stmt.marks : Stmt → Nat
  | .block items => items.marks
  | .branch _ body => body.marks
  | .choice _ body other => body.marks + other.marks
  | .loop _ body => body.marks
  | .bug body => body.marks + 1
  | .expression _ => 0
  | .empty => 0
  | .print _ => 0
  | .ret _ => 0
  | .leave _ => 0

/-- The marks in an item. -/
def Item.marks : Item → Nat
  | .field _ _ => 0
  | .method _ _ _ _ body => body.marks
  | .statement t => t.marks

/-- The marks in a statement list. -/
def Items.marks : Items → Nat
  | .nil => 0
  | .cons item rest => item.marks + rest.marks

end

mutual

theorem Stmt.length_warnings : ∀ (t : Stmt) {ts : List Token}, t.kinds.length ≤ ts.length →
    (t.warnings ts).length = t.marks
  | .block items, ts, h => by
    simp only [Stmt.kinds, List.length_append, List.length_cons] at h
    exact items.length_warnings (by rw [List.length_drop]; omega)
  | .branch condition body, ts, h => by
    simp only [Stmt.kinds, List.length_append, List.length_cons] at h
    exact body.length_warnings (by rw [List.length_drop]; omega)
  | .choice condition body other, ts, h => by
    simp only [Stmt.kinds, List.length_append, List.length_cons] at h
    simp only [Stmt.warnings, List.length_append, Stmt.marks]
    rw [body.length_warnings (by rw [List.length_drop]; omega),
      other.length_warnings (by rw [List.length_drop, List.length_drop]; omega)]
  | .loop condition body, ts, h => by
    simp only [Stmt.kinds, List.length_append, List.length_cons] at h
    exact body.length_warnings (by rw [List.length_drop]; omega)
  | .bug body, [], h => by simp [Stmt.kinds] at h
  | .bug body, t :: ts, h => by
    simp only [Stmt.kinds, List.length_append, List.length_cons] at h
    have hbody : (body.warnings ts).length = body.marks := body.length_warnings (by omega)
    simp [Stmt.warnings, Stmt.marks, hbody]
  | .expression _, _, _ => rfl
  | .empty, _, _ => rfl
  | .print _, _, _ => rfl
  | .ret _, _, _ => rfl
  | .leave _, _, _ => rfl

theorem Item.length_warnings : ∀ (item : Item) {ts : List Token}, item.kinds.length ≤ ts.length →
    (item.warnings ts).length = item.marks
  | .field _ _, _, _ => rfl
  | .method type x parameters comma body, ts, h => by
    simp only [Item.kinds, List.length_append] at h
    exact body.length_warnings (by rw [List.length_drop]; omega)
  | .statement t, _, h => t.length_warnings h

/-- There is one warning for each mark, provided that all tokens of the tree are there. -/
theorem Items.length_warnings : ∀ (items : Items) {ts : List Token},
    items.kinds.length ≤ ts.length → (items.warnings ts).length = items.marks
  | .nil, _, _ => rfl
  | .cons item rest, ts, h => by
    simp only [Items.kinds, List.length_append] at h
    simp only [Items.warnings, List.length_append, Items.marks]
    rw [item.length_warnings (by omega), rest.length_warnings (by rw [List.length_drop]; omega)]

end

/-! ### Branches out of a fragment -/

/-- Labels get their offsets in any order: a branch that waits for one of two labels does not wait
for the other. -/
theorem Fragment.redirect_comm {k l : Nat} (h : k ≠ l) (m n : Nat) (f : Fragment) :
    (f.redirect k m).redirect l n = (f.redirect l n).redirect k m := by
  have htarget (t : Target) : (t.redirect k m).redirect l n = (t.redirect l n).redirect k m := by
    cases t with
    | offset _ => rfl
    | pending j =>
      by_cases hk : j = k
      · subst hk
        simp [Target.redirect, h]
      · by_cases hl : j = l
        · subst hl
          simp [Target.redirect, hk]
        · simp [Target.redirect, hk, hl]
  simp only [redirect, List.map_map]
  congr 1
  refine List.map_congr_left fun i _ => ?_
  cases i with
  | plain _ => rfl
  | branch t => exact congrArg Instruction.branch (htarget t)
  | branchIfFalse t => exact congrArg Instruction.branchIfFalse (htarget t)

/-- A label gets its offset once.  Behind that no branch waits for it any more. -/
theorem Fragment.redirect_self (l m n : Nat) (f : Fragment) :
    (f.redirect l m).redirect l n = f.redirect l m := by
  simp only [redirect, List.map_map]
  congr 1
  refine List.map_congr_left fun i _ => Instruction.redirect_of_ne ?_
  rw [Instruction.target?_redirect]
  cases i.target? with
  | none => simp
  | some t =>
    cases t with
    | offset _ => simp
    | pending j => by_cases hj : j = l <;> simp [Target.redirect, hj]

/-- The branches of the fragment wait for labels of the loop around it only: a label that the loop
does not know can get any offset, and nothing in the fragment changes. -/
def Fragment.Leaves (loop : Option Exits) (f : Fragment) : Prop :=
  ∀ k n, loop.map (Exits.redirect k n) = loop → f.redirect k n = f

namespace Fragment.Leaves

variable {loop : Option Exits} {f g : Fragment}

theorem append (hf : f.Leaves loop) (hg : g.Leaves loop) : (f ++ g).Leaves loop := by
  intro k n h
  rw [redirect_append, hf k n h, hg k n h]

theorem plain (operations : List Operation) : (Fragment.plain operations).Leaves loop :=
  fun k n _ => redirect_plain k n operations

theorem skip (σ : Site) (condition : List Operation) (size : Nat) :
    (σ.skip condition size).Leaves loop :=
  fun k n _ => σ.skip_redirect k n condition size

theorem leap (σ : Site) (size : Nat) : (σ.leap size).Leaves loop :=
  fun k n _ => σ.leap_redirect k n size

theorem round (σ : Site) (condition : List Operation) (size : Nat) :
    (σ.round condition size).Leaves loop :=
  fun k n _ => σ.round_redirect k n condition size

theorem again (σ : Site) : σ.again.Leaves loop := fun k n _ => σ.again_redirect k n

/-- A site does not depend on labels that are made later, so the fragment does not either. -/
theorem before {l : Nat} {σ : Site} (hf : f.Leaves σ.loop) (hσ : σ.Before l) : f.Before l :=
  fun k n hk => hf k n (congrArg Site.loop (hσ k n hk))

/-- Once the label behind a loop has got its offset, no branch of the body waits for a label.  The
label at its beginning has got one already. -/
theorem redirect {σ : Site} {l : Nat} (hf : f.Leaves (some (σ.pendingExits l))) (offset : Nat) :
    (f.redirect (l + 1) offset).Leaves loop := by
  intro k n _
  by_cases hk : k = l + 1
  · subst hk
    exact redirect_self _ _ _ f
  · rw [redirect_comm (Ne.symm hk), hf k n]
    simp [Site.pendingExits, Exits.redirect, Target.redirect, Ne.symm hk]

/-- What a tree means waits for the loop around it only. -/
theorem of_redirect (lower? : Site → Option Fragment) {σ : Site}
    (hlower : ∀ k n, lower? (σ.redirect k n) = (lower? σ).map (Fragment.redirect k n))
    (h : lower? σ = some f) : f.Leaves σ.loop := by
  intro k n hloop
  have hσ : σ.redirect k n = σ := by
    unfold Site.redirect
    rw [hloop]
  have hredirect := hlower k n
  rw [hσ, h] at hredirect
  exact (Option.some.inj hredirect).symm

end Fragment.Leaves

theorem Stmt.leaves_of_lower? {t : Stmt} {σ : Site} {f : Fragment} (h : t.lower? σ = some f) :
    f.Leaves σ.loop :=
  .of_redirect (Stmt.lower? · t) (t.lower?_redirect · · σ) h

theorem Item.leaves_of_lower? {i : Item} {σ : Site} {f : Fragment} (h : i.lower? σ = some f) :
    f.Leaves σ.loop :=
  .of_redirect (Item.lower? · i) (i.lower?_redirect · · σ) h

theorem Items.leaves_of_lower? {items : Items} {σ : Site} {f : Fragment}
    (h : items.lower? σ = some f) : f.Leaves σ.loop :=
  .of_redirect (Items.lower? · items) (items.lower?_redirect · · σ) h

end OnePass
