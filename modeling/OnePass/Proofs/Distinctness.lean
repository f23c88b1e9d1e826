import Mathlib.Data.List.Nodup
import OnePass.Proofs.Translation

/-!
# The names within a method

A declaration is checked against the innermost scope only, and only methods open scopes.  So what
is declared in a block, in a branch or in a loop meets everything that the method around it has
declared so far, its parameters included, whatever methods have been declared and left in between.

## Main definitions

* `Method.names` — the names of the parameters and the locals of a method.
* `Method.Distinct` — all of them have a name, and no two the same.
* `Fragment.Distinct` — the same of a part of the source, given the names in front of it.

## Main results

* `Site.fresh_append` — names can be declared one after the other if they differ.
* `Items.distinct` — no name is declared twice in a tree that means something.
* `distinct_of_compile` — **no method of a program has two variables of one name**.
-/

namespace OnePass

/-! ### Methods -/

namespace Method

/-- The names of the parameters and of the locals of a method, those of the parameters first. -/
def names (m : Method) : List (Option String) :=
  m.parameters.toList.map Parameter.name ++ m.locals.toList.map fun v => some v.name

/-- Every parameter has a name, and no two of the parameters and the locals have the same. -/
def Distinct (m : Method) : Prop := none ∉ m.names ∧ m.names.Nodup

end Method

theorem Fragment.names_method (f : Fragment) (name : String) (returnType : Ty)
    (ds : List Declarator) : (f.method name returnType ds).names =
      (ds.map Declarator.name ++ f.locals.map Variable.name).map some := by
  simp [Fragment.method, Method.names, Function.comp_def]

theorem Declarator.map_fst_bindings (method : MethodId) (ds : List Declarator) :
    (bindings method ds).map Prod.fst = ds.map Declarator.name := by
  have hnames : (ds.zipIdx.map Prod.fst).map Declarator.name = ds.map Declarator.name := by
    rw [List.zipIdx_map_fst]
  rw [← hnames, bindings, List.map_map, List.map_map]
  rfl

/-! ### Declaring names one after the other -/

namespace Site

variable {σ : Site}

theorem names_declare_ne_nil (hσ : σ.names ≠ []) (bs : List (String × Binding)) :
    (σ.declare bs).names ≠ [] := by
  cases hnames : σ.names with
  | nil => exact absurd hnames hσ
  | cons names rest => simp [declare, hnames]

theorem fresh_singleton {x : String} (h : σ.declaredHere x = false) : σ.Fresh [x] := by
  refine ⟨List.nodup_singleton x, fun y hy => ?_⟩
  rwa [List.mem_singleton.mp hy]

/-- Names can be declared one after the other if they differ, and if none is there already.  Both
are checked in the innermost scope only. -/
theorem fresh_append (hσ : σ.names ≠ []) (bs : List (String × Binding)) (ys : List String) :
    σ.Fresh (bs.map Prod.fst ++ ys) ↔
      σ.Fresh (bs.map Prod.fst) ∧ (σ.declare bs).Fresh ys := by
  induction bs generalizing σ with
  | nil =>
    rw [declare_nil, List.map_nil, List.nil_append]
    exact ⟨fun h => ⟨⟨List.nodup_nil, by simp⟩, h⟩, And.right⟩
  | cons b bs ih =>
    -- the first name is there for all that follow it, and the rest follows by induction
    rw [List.map_cons, List.cons_append, fresh_cons hσ b.1 _ b.2, fresh_cons hσ b.1 _ b.2,
      ih (names_declare_ne_nil hσ [b]), σ.declare_cons b bs, and_assoc]

end Site

/-! ### Fragments -/

/-- No name is declared twice, nor one that the innermost scope has already.  The locals are among
the names, and the methods are in order. -/
structure Fragment.Distinct (σ : Site) (f : Fragment) : Prop where
  fresh : σ.Fresh (f.names.map Prod.fst)
  locals : (f.locals.map Variable.name).Sublist (f.names.map Prod.fst)
  methods : ∀ m ∈ f.methods, m.Distinct

namespace Fragment.Distinct

variable {σ : Site} {f g : Fragment}

theorem append (hσ : σ.names ≠ []) (hf : f.Distinct σ) (hg : g.Distinct (σ.past f)) :
    (f ++ g).Distinct σ where
  fresh := by
    rw [append_names, List.map_append, Site.fresh_append hσ]
    exact ⟨hf.fresh, hg.fresh⟩
  locals := by
    rw [append_locals, append_names, List.map_append, List.map_append]
    exact hf.locals.append hg.locals
  methods := by
    intro m hm
    rcases List.mem_append.mp hm with hm | hm
    · exact hf.methods m hm
    · exact hg.methods m hm

/-- Code declares nothing, so it is in order anywhere. -/
theorem of_code (σ : Site) (code : List Instruction) (labels : List Nat) :
    (⟨[], [], code, labels, []⟩ : Fragment).Distinct σ where
  fresh := ⟨List.nodup_nil, by simp⟩
  locals := List.Sublist.slnil
  methods := by simp

/-- **A method has distinct names** if its body declares none of its parameters again. -/
theorem method (hσ : σ.names ≠ []) {owner : MethodId} {ds : List Declarator}
    (hds : σ.Fresh (ds.map Declarator.name))
    (hf : f.Distinct (σ.declare (Declarator.bindings owner ds))) (name : String) (returnType : Ty) :
    (f.method name returnType ds).Distinct := by
  rw [← Declarator.map_fst_bindings owner] at hds
  -- the parameters come first, and the names of the body are fresh behind them
  have hfresh := (Site.fresh_append hσ _ _).mpr ⟨hds, hf.fresh⟩
  rw [Declarator.map_fst_bindings] at hfresh
  have hnodup : (ds.map Declarator.name ++ f.locals.map Variable.name).Nodup :=
    hfresh.1.sublist ((List.Sublist.refl _).append hf.locals)
  rw [Method.Distinct, names_method]
  exact ⟨by simp, hnodup.map fun _ _ => Option.some.inj⟩

end Fragment.Distinct

/-! ### Trees -/

mutual

/-- A statement declares no name twice, and none that is declared in front of it.  It opens no scope
of its own. -/
theorem Stmt.distinct : ∀ (t : Stmt) {σ : Site} {f : Fragment}, t.lower? σ = some f →
    σ.names ≠ [] → f.Distinct σ
  | .block items, _, _, h, hσ => items.distinct h hσ
  | .branch condition body, σ, _, h, hσ => by
    obtain ⟨code, -, g, hg, rfl⟩ := Stmt.lower?_branch.mp h
    exact .append hσ (.of_code σ _ _) (body.distinct hg (Site.names_declare_ne_nil hσ _))
  | .choice condition body other, σ, _, h, hσ => by
    obtain ⟨code, -, g, hg, g', hg', rfl⟩ := Stmt.lower?_choice.mp h
    have hbody := body.distinct hg (Site.names_declare_ne_nil hσ _)
    have hother := other.distinct hg' (Site.names_declare_ne_nil hσ _)
    exact .append hσ (.append hσ (.append hσ (.of_code σ _ _) hbody) (.of_code _ _ _)) hother
  | .loop condition body, σ, _, h, hσ => by
    obtain ⟨code, -, g, hg, rfl⟩ := Stmt.lower?_loop.mp h
    have hbody := body.distinct hg (Site.names_declare_ne_nil hσ _)
    -- being in a loop makes no difference to names
    exact .append hσ (.append hσ (.of_code σ _ _) ⟨hbody.fresh, hbody.locals, hbody.methods⟩)
      (.of_code _ _ _)
  | .expression e, σ, _, h, _ => by
    obtain ⟨ty, code, -, rfl⟩ := Stmt.lower?_expression.mp h
    exact .of_code σ _ _
  | .empty, σ, _, h, _ => by cases h; exact .of_code σ _ _
  | .print none, σ, _, h, _ => by cases h; exact .of_code σ _ _
  | .print (some x), σ, _, h, _ => by
    obtain ⟨ty, operation, -, rfl⟩ := Stmt.lower?_print.mp h
    exact .of_code σ _ _
  | .bug body, _, _, h, hσ => body.distinct h hσ
  | .ret none, σ, _, h, _ => by
    obtain ⟨-, rfl⟩ := Stmt.lower?_ret_none.mp h
    exact .of_code σ _ _
  | .ret (some e), σ, _, h, _ => by
    obtain ⟨code, -, -, rfl⟩ := Stmt.lower?_ret_some.mp h
    exact .of_code σ _ _
  | .leave exit, σ, _, h, _ => by
    obtain ⟨exits, -, -, rfl⟩ := Stmt.lower?_leave.mp h
    exact .of_code σ _ _

theorem Item.distinct : ∀ (item : Item) {σ : Site} {f : Fragment}, item.lower? σ = some f →
    σ.names ≠ [] → f.Distinct σ
  | .field type x, σ, _, h, _ => by
    obtain ⟨⟨hfresh, -⟩, rfl⟩ := Item.lower?_field.mp h
    exact ⟨Site.fresh_singleton hfresh, .refl _, List.forall_mem_nil _⟩
  | .method type x ds comma body, σ, _, h, _ => by
    obtain ⟨g, hg, ⟨hfresh, hformed⟩, rfl⟩ := Item.lower?_method.mp h
    -- the parameters are the first names of a scope that is still empty
    have hds : (σ.body type.ty x []).Fresh (ds.map Declarator.name) := by
      refine ⟨?_, fun _ _ => rfl⟩
      simp only [Declarator.wellFormed, Bool.and_eq_true, decide_eq_true_eq] at hformed
      exact hformed.1.1.2
    have hbody : g.Distinct ((σ.body type.ty x []).declare (Declarator.bindings σ.methods ds)) :=
      body.distinct hg (List.cons_ne_nil _ _)
    refine ⟨Site.fresh_singleton hfresh, List.nil_sublist _, ?_⟩
    intro m hm
    rcases List.mem_cons.mp hm with rfl | hm
    · exact hbody.method (List.cons_ne_nil _ _) hds x type.ty
    · exact hbody.methods m hm
  | .statement s, _, _, h, hσ => s.distinct h hσ

theorem Items.distinct : ∀ (items : Items) {σ : Site} {f : Fragment}, items.lower? σ = some f →
    σ.names ≠ [] → f.Distinct σ
  | .nil, σ, _, h, _ => by cases h; exact .of_code σ _ _
  | .cons item rest, _, _, h, hσ => by
    obtain ⟨g, hg, g', hg', rfl⟩ := Items.lower?_cons.mp h
    exact (item.distinct hg hσ).append hσ (rest.distinct hg' (Site.names_declare_ne_nil hσ _))

end

/-! ### Programs -/

/-- **No method of a program has two variables of one name.**  This includes its parameters. -/
theorem distinct_of_compile {options : Options} {source : String} {c : Compilation}
    (h : compile options source = .ok c) :
    ∀ m ∈ c.program.methods, none ∉ m.names ∧ m.names.Nodup := by
  obtain ⟨items, tokens, -, -, hprogram, -⟩ := compile_eq_ok_iff.mp h
  obtain ⟨f, hlower, hmethods⟩ := Items.program?_eq_some.mp hprogram
  have hdistinct : f.Distinct ((Site.entry options).declare (Declarator.bindings 0 [])) :=
    items.distinct hlower (List.cons_ne_nil _ _)
  intro m hm
  rw [← hmethods] at hm
  rcases List.mem_cons.mp (List.mem_toArray.mp hm) with rfl | hm
  · have hnone : (Site.entry options).Fresh (List.map Declarator.name []) :=
      ⟨List.nodup_nil, by simp⟩
    exact hdistinct.method (List.cons_ne_nil _ _) hnone "main" .void
  · exact hdistinct.methods m hm

/-- Names that a method uses again between two declarations of the method around it.  Its own scope
keeps them apart. -/
def reusedSource : String :=
  "int x;
  int f(int y) { int x; while (y == 1) { void g(int x) { int y; } int z; } return x; }
  int y;"

theorem distinct_of_compile_reused : ∃ c, compile {} reusedSource = .ok c ∧
    c.program.methods.toList.map Method.names =
      [[some "x", some "y"], [some "y", some "x", some "z"], [some "x", some "y"]] ∧
    ∀ m ∈ c.program.methods, none ∉ m.names ∧ m.names.Nodup := by
  have hnames : (compile {} reusedSource).toOption.map
      (fun c => c.program.methods.toList.map Method.names) =
      some [[some "x", some "y"], [some "y", some "x", some "z"], [some "x", some "y"]] := by
    decide +kernel
  obtain ⟨c, hc, hnames⟩ := Option.map_eq_some_iff.mp hnames
  have hok := eq_ok_of_toOption hc
  exact ⟨c, hok, hnames, distinct_of_compile hok⟩

end OnePass
