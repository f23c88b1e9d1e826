import OnePass.Proofs.Flow

/-!
# Statements are read as they are meant

The statements without statements inside, `bug`, and then all forms of statement together.

## Main results

* `Production.matches_expressionStatement` — a value that is not used is dropped.
* `Production.matches_leaveStatement` — a loop is left for one of its two ends.
* `Production.matches_statementForms` — **statements are read as they are meant**, if the
  expressions, statements and items in them are.
-/

namespace OnePass

/-- The label a loop is left for by one of the two ways of leaving it. -/
def Exit.label : Exit → Loop → Label
  | .break => Loop.breakLabel
  | .continue => Loop.continueLabel

/-- A loop is left for the target of a label, which is the place its method puts the label at. -/
theorem Draft.target_exits (d : Draft) (loop : Loop) (exit : Exit) :
    (d.exits loop).target exit = d.target (exit.label loop).index := by
  cases exit <;> rfl

/-- The labels of a loop are labels of its method, so a branch to them stays within the method. -/
theorem Loop.BelongsTo.label {loop : Loop} {id : MethodId} {labels : Nat}
    (h : loop.BelongsTo id labels) (exit : Exit) :
    (exit.label loop).method = id ∧ (exit.label loop).index < labels := by
  cases exit with
  | «break» => exact h.1
  | «continue» => exact h.2

/-- Only if they are enabled, statements that stop the flow of control mean something.  Reading them
needs this, since they are not tried otherwise. -/
theorem Stmt.stopStatements_of_ret {σ : Site} {value : Option (Expr .relation)} {f : Fragment}
    (h : (Stmt.ret value).lower? σ = some f) : σ.options.stopStatements = true := by
  cases value with
  | none =>
    obtain ⟨⟨hstop, -⟩, -⟩ := Stmt.lower?_ret_none.mp h
    exact hstop
  | some e =>
    obtain ⟨code, -, ⟨hstop, -⟩, -⟩ := Stmt.lower?_ret_some.mp h
    exact hstop

theorem Stmt.stopStatements_of_leave {σ : Site} {exit : Exit} {f : Fragment}
    (h : (Stmt.leave exit).lower? σ = some f) : σ.options.stopStatements = true := by
  obtain ⟨exits, -, hstop, -⟩ := Stmt.lower?_leave.mp h
  exact hstop

/-- The item stops the flow of control, by itself and not by what is in it. -/
def Item.stops : Item → Bool
  | .statement (.ret _) => true
  | .statement (.leave _) => true
  | _ => false

theorem Item.stopStatements_of_stops {σ : Site} {item : Item} {f : Fragment}
    (h : item.lower? σ = some f) (hstops : item.stops = true) :
    σ.options.stopStatements = true := by
  rcases item with _ | _ | t
  · cases hstops
  · cases hstops
  · cases t with
    | ret value => exact Stmt.stopStatements_of_ret h
    | leave exit => exact Stmt.stopStatements_of_leave h
    | _ => cases hstops

/-- The tokens that stop the flow of control.  Each of them tells which statement it is. -/
def Token.Kind.beginsStop : Token.Kind → Bool
  | .keyword .return => true
  | .keyword .break => true
  | .keyword .continue => true
  | _ => false

/-- The tokens a statement can begin with.  Those of expressions are among them. -/
def Token.Kind.beginsStmt : Token.Kind → Bool
  | .symbol .leftBrace => true
  | .keyword .if => true
  | .keyword .while => true
  | .symbol .semicolon => true
  | .keyword .printf => true
  | .keyword .bug => true
  | k => k.beginsExpr || k.beginsStop

theorem Token.Kind.beginsExpr_of_beginsStop {k : Token.Kind} (h : k.beginsStop = true) :
    k.beginsExpr = false := by
  unfold beginsStop at h
  split at h
  · rfl
  · rfl
  · rfl
  · cases h

theorem Token.Kind.beginsStmt_of_beginsExpr {k : Token.Kind} (h : k.beginsExpr = true) :
    k.beginsStmt = true := by
  unfold beginsStmt
  split
  all_goals simp [h]

theorem Token.Kind.beginsStmt_of_beginsStop {k : Token.Kind} (h : k.beginsStop = true) :
    k.beginsStmt = true := by
  unfold beginsStmt
  split
  all_goals simp [h]

theorem Stmt.kinds_eq_cons (t : Stmt) : ∃ k rest, t.kinds = k :: rest ∧ k.beginsStmt = true := by
  cases t with
  | expression e =>
    obtain ⟨k, rest, hkinds, hk⟩ := e.kinds_eq_cons
    exact ⟨k, rest, hkinds, Token.Kind.beginsStmt_of_beginsExpr hk⟩
  | leave exit => exact ⟨_, _, rfl, by cases exit <;> rfl⟩
  | _ => exact ⟨_, _, rfl, rfl⟩

namespace Production

variable {options : Options} {bound : Nat} {s s₁ : State} {ks : List Token.Kind}
  {added : List Diagnostic} {σ : Site} {o : Outline} {d : Draft} {ms : List Draft}
  {E : Halt → State → Prop}

/-! ### Expressions as statements -/

/-- A value is dropped if there is one, so that a statement leaves nothing on the stack. -/
theorem dropValue_moves {code : List Operation} (h : s.Moves σ o d ks (.plain code) added s₁)
    (ty : Ty) : Ends (dropValue ty) s₁ (fun _ s₂ =>
      s.Moves σ o d ks (.plain (if ty = .void then code else code ++ [.pop])) added s₂) E := by
  unfold dropValue
  by_cases hty : ty = .void
  · rw [if_pos hty, if_pos hty]
    exact h
  · rw [if_neg hty, if_neg hty]
    refine (emit_moves h .pop).imp fun _ s₂ h₂ => ?_
    simpa using h₂

instance {ty : Ty} : Onward (dropValue ty) :=
  inferInstanceAs (Onward (if ty = .void then pure () else emit .pop))

/-- Expressions are read as statements if they are read.  What remains to show is what becomes of
the value. -/
theorem matches_expressionStatement {expression : Production (Option Ty)}
    (he : Reads options bound .relation expression) :
    Matches options bound Token.Kind.beginsExpr (fun i => ∃ e, i = .statement (.expression e))
      (expressionStatement expression) where
  onward := onward_fine.expressionStatement he.onward
  begins {_} hitem := by
    obtain ⟨e, rfl⟩ := hitem
    exact e.kinds_eq_cons
  refuses {s} hsettled hlook := by
    -- no expression begins with the token ahead, so none is found
    have hnone : ∀ e : Expr .relation, e.kinds.head? ≠ some s.lookahead.kind := by
      intro e hhead
      obtain ⟨k, rest, hkinds, hk⟩ := e.kinds_eq_cons
      rw [hkinds, List.head?_cons, Option.some.injEq] at hhead
      rw [← hhead, hk] at hlook
      cases hlook
    exact bind_eq_ok.mpr ⟨none, s, he.refuses hsettled hnone, rfl⟩
  complete {s σ o d} h hoptions hbound {_ k rest f} hitem hkinds hk _ hlower := by
    obtain ⟨e, rfl⟩ := hitem
    obtain ⟨ty, code, hcode, rfl⟩ := Stmt.lower?_expression.mp hlower
    refine (he.complete h hoptions hbound hkinds hk hcode).bind ?_
    rintro _ s₁ ⟨rfl, h₁⟩
    refine (dropValue_moves h₁ ty).bind fun _ s₂ h₂ => ⟨rfl, ?_⟩
    -- whether there is a value to drop can be told from the type as well as from the tree
    simpa [Item.kinds, Stmt.kinds, Item.warnings, Stmt.warnings, e.eq_void_iff h.valued hcode]
      using h₂
  sound {s σ o d} h hoptions hbound := by
    refine (he.sound h hoptions hbound).bind fun a s₁ h₁ => ?_
    cases a with
    | none =>
      show Accepts (pure false) _ _
      exact .of_clean fun hclean => accepts_pure (h₁ hclean)
    | some ty =>
      refine .of_clean fun hclean => ?_
      obtain ⟨e, code, hcode, hnext, h₁⟩ := h₁ hclean
      refine (dropValue_moves (E := fun _ _ => True) h₁ ty).then fun _ s₂ h₂ => accepts_pure ?_
      refine ⟨.statement (.expression e), _, ⟨e, rfl⟩, rfl,
        Stmt.lower?_expression.mpr ⟨ty, code, hcode, rfl⟩, ?_, ?_⟩
      · rw [h₂.passes.lookahead_eq h₁.passes]
        exact hnext
      · simpa [Item.kinds, Stmt.kinds, Item.warnings, Stmt.warnings, e.eq_void_iff h.valued hcode]
          using h₂

/-- A semicolon is a statement, with no code and nothing to warn of. -/
theorem matches_semicolon : Matches options (bound + 1) (fun k => k = .symbol .semicolon)
    (fun i => i = .statement .empty) (accept (.symbol .semicolon)) := by
  refine .of_accept (by simp) (fun _ => return true) ?_ (onward_fine.accept _) ?_ ?_ ?_
  · intro s
    -- the token is the whole statement, so nothing is left to read behind it
    have hpure : (fun found : Bool => if found = true then pure true else pure false) =
        (pure : Bool → Production Bool) := by
      funext found
      cases found <;> rfl
    show _ = (accept (.symbol .semicolon) >>= fun found : Bool =>
      if found = true then pure true else pure false : Production Bool) s
    rw [hpure, bind_pure]
  · rintro _ rfl
    exact ⟨_, rfl⟩
  · rintro s s₁ σ o d h h₁ hoptions hbound _ k ahead f rfl hkinds hk hclosed hlower
    cases hlower
    exact ⟨rfl, h₁.moves⟩
  · intro s s₁ σ o d h h₁ hoptions hbound
    exact accepts_pure ⟨rfl, .statement .empty, {}, rfl, rfl, rfl, rfl, h₁.moves⟩

/-! ### Printing -/

/-- What is logged changes nothing else, in particular not what the state means. -/
theorem logged_goes (h : s.Goes o ks added s₁ σ d ms) (log : Array Event) :
    s.Goes o ks added { s₁ with log := log } σ d ms := by
  have hready := h.here.ready
  have hsame : s₁.Same { s₁ with log := log } := ⟨rfl, rfl, rfl, rfl⟩
  have hpasses : s₁.Passes [] [] { s₁ with log := log } :=
    ⟨⟨hready.settled, hready.quiet, hready.last⟩, rfl, rfl, (List.append_nil _).symm⟩
  simpa using h.of_same hsame hpasses

section

variable (h : s.Goes o ks added s₁ σ d []) (hoptions : σ.options = options)
include h hoptions

/-- A name that has a value is printed, by loading the value first. -/
theorem printNamed_moves {x : String} {ty : Ty} {operation : Operation}
    (hload : σ.load? x = some (ty, operation)) (p : Position) :
    Ends (printNamed options x p) s₁
      (fun _ s₂ => s.Moves σ o d ks (.plain [operation, .print]) added s₂) E := by
  have hfind := h.here.find?_eq x
  refine ends_bind.mpr (ends_view.mpr ?_)
  cases hentity : s₁.scopes.find? x with
  -- a name without an entity has no value
  | none => simp [Site.load?, hfind, hentity] at hload
  | some entity =>
    rw [hentity] at hfind
    refine ends_bind.mpr (ends_modify.mpr
      ((load_goes (logged_goes h _) hfind hoptions hload p).bind ?_))
    rintro _ s₂ ⟨rfl, h₂⟩
    refine (emit_goes h₂ .print).imp fun _ s₃ h₃ => ?_
    exact moves_plain (f := {}) [operation, .print] rfl (by simpa using h₃)

theorem printNamed_accepts (x : String) (p : Position) :
    Accepts (printNamed options x p) s₁ fun _ s₂ => ∃ ty operation,
      σ.load? x = some (ty, operation) ∧
      s.Moves σ o d ks (.plain [operation, .print]) added s₂ := by
  have hfind := h.here.find?_eq x
  refine accepts_view ?_
  cases hentity : s₁.scopes.find? x with
  | none => exact accepts_errorAt (f := pure) h.here.ready.settled p _
  | some entity =>
    rw [hentity] at hfind
    refine accepts_modify ((load_accepts (logged_goes h _) hfind hoptions p).then ?_)
    rintro _ s₂ ⟨ty, operation, rfl, hload, h₂⟩
    refine (emit_goes (E := fun _ _ => True) h₂ .print).accepts.mono fun _ s₃ h₃ => ?_
    exact ⟨ty, operation, hload, moves_plain (f := {}) [operation, .print] rfl (by simpa using h₃)⟩

/-- What is printed is one name, or nothing, in which case there is no code either. -/
theorem printArgument_moves {argument : Option String} {rest : List Token.Kind} {f : Fragment}
    (hkinds : s₁.kinds = (argument.map Token.Kind.identifier).toList ++ .symbol .rightParen :: rest)
    (hlower : (Stmt.print argument).lower? σ = some f) :
    Ends (printArgument options) s₁ (fun _ s₂ =>
      s.Moves σ o d (ks ++ (argument.map Token.Kind.identifier).toList) f added s₂) E := by
  refine ends_bind.mpr (ends_view.mpr ?_)
  cases argument with
  | none =>
    cases hlower
    have hlook := State.lookahead_of_kinds hkinds
    refine (accept?_leaves h Token.Kind.name? (by rw [hlook]; rfl)).bind ?_
    rintro _ _ ⟨rfl, rfl⟩
    simpa using h.moves
  | some x =>
    obtain ⟨ty, operation, hload, rfl⟩ := Stmt.lower?_print.mp hlower
    have hlook := State.lookahead_of_kinds hkinds
    refine (accept?_takes h Token.Kind.name? rfl hlook rfl).bind ?_
    rintro _ s₂ ⟨rfl, h₂⟩
    exact printNamed_moves h₂ hoptions hload _

theorem printArgument_accepts : Accepts (printArgument options) s₁ fun _ s₂ =>
    ∃ (argument : Option String) (f : Fragment), (Stmt.print argument).lower? σ = some f ∧
      s.Moves σ o d (ks ++ (argument.map Token.Kind.identifier).toList) f added s₂ := by
  refine accepts_view ((accept?_goes (E := fun _ _ => True) h Token.Kind.name? rfl).then ?_)
  rintro (_ | x) s₂ ⟨hname, h₂⟩
  · subst h₂
    exact accepts_pure ⟨none, {}, rfl, by simpa using h.moves⟩
  · rw [Token.Kind.name?_eq_some hname] at h₂
    refine (printNamed_accepts h₂ hoptions x _).mono ?_
    rintro _ s₃ ⟨ty, operation, hload, h₃⟩
    exact ⟨some x, _, Stmt.lower?_print.mpr ⟨ty, operation, hload, rfl⟩, h₃⟩

end

instance : Onward (printArgument options) := (onward_fine.grammar options).printArgument

/-- Names are printed.  Two brackets and a semicolon are expected around the name, in the order they
are written. -/
theorem matches_printStatement : Matches options (bound + 1) (fun k => k = .keyword .printf)
    (fun i => ∃ argument, i = .statement (.print argument)) (printStatement options) := by
  refine .of_accept (by simp) (fun _ => do
      expect .leftParen
      printArgument options
      expect .rightParen
      expect .semicolon
      return true)
    (fun _ => rfl) (onward_fine.grammar options).printStatement ?_ ?_ ?_
  · rintro _ ⟨argument, rfl⟩
    exact ⟨_, rfl⟩
  · rintro s s₁ σ o d h h₁ hoptions hbound _ k ahead f ⟨argument, rfl⟩ hkinds hk hclosed hlower
    have hkinds : s.kinds = [.keyword .printf, .symbol .leftParen] ++
        ((argument.map Token.Kind.identifier).toList ++
          .symbol .rightParen :: .symbol .semicolon :: k :: ahead) := by
      simpa [Item.kinds, Stmt.kinds] using hkinds
    have hparen := State.lookahead_of_kinds (h₁.passes.kinds_eq hkinds)
    refine (expect_goes h₁ hparen).bind fun _ s₂ h₂ => ?_
    refine (printArgument_moves h₂ hoptions (h₂.passes.kinds_eq hkinds) hlower).bind
      fun _ s₃ h₃ => ?_
    have hparen := State.lookahead_of_kinds (h₃.passes.kinds_eq (by simpa using hkinds))
    refine (expect_goes h₃ hparen).bind fun _ s₄ h₄ => ?_
    have hmark := State.lookahead_of_kinds (h₄.passes.kinds_eq (by simpa using hkinds))
    refine (expect_goes h₄ hmark).bind fun _ s₅ h₅ => ⟨rfl, ?_⟩
    simpa [Item.kinds, Stmt.kinds, Item.warnings, Stmt.warnings] using h₅.behind
  · intro s s₁ σ o d h h₁ hoptions hbound
    refine (expect_accepts h₁ .leftParen).then fun _ s₂ h₂ => ?_
    refine (printArgument_accepts h₂ hoptions).then ?_
    rintro _ s₃ ⟨argument, f, hlower, h₃⟩
    refine (expect_accepts h₃ .rightParen).then fun _ s₄ h₄ => ?_
    refine (expect_accepts h₄ .semicolon).then fun _ s₅ h₅ => accepts_pure ⟨rfl, ?_⟩
    refine ⟨.statement (.print argument), f, ⟨argument, rfl⟩, rfl, hlower, rfl, ?_⟩
    simpa [Item.kinds, Stmt.kinds, Item.warnings, Stmt.warnings] using h₅.behind

/-! ### Marked statements -/

/-- A warning is added to the reports, and no token is passed. -/
theorem warn_goes (h : s.Goes o ks added s₁ σ d ms) (p : Position) (w : Warning) :
    Ends (warn p w) s₁
      (fun _ s₂ => s.Goes o ks (added ++ [.warning p w]) s₂ σ d ms) E := by
  have hready := h.here.ready
  have hpasses : s₁.Passes [] [.warning p w] (s₁.report (.warning p w)) :=
    ⟨⟨hready.settled, hready.quiet, hready.last⟩, rfl, rfl, State.reports_report s₁ _⟩
  refine ends_modify.mpr ?_
  simpa using h.of_same (.report s₁ _) hpasses

/-- What follows the keyword of a marked statement. -/
def bugRest (statement : Production Bool) (p : Position) : Production Bool := do
  required statement
  expect .semicolon
  warn p .possibleBug
  return true

/-- The rest of a marked statement is read if the statement is, and there is a warning. -/
theorem bug_goes {statement : Production Bool} {s s₁ : State} {σ : Site} {o : Outline} {d : Draft}
    (h₁ : s.Goes o [.keyword .bug] [] s₁ σ d []) {bodyKinds rest : List Token.Kind}
    {R : Fragment → List Diagnostic → Prop}
    (hkinds : s.kinds = .keyword .bug :: (bodyKinds ++ .symbol .semicolon :: rest))
    (hbody : YieldsAt statement true σ (s.tokens.drop 1) bodyKinds R) (p : Position) :
    Ends (bugRest statement p) s₁ (fun a s' => a = true ∧ ∃ f added, R f added ∧
      s.Moves σ o d (.keyword .bug :: (bodyKinds ++ [.symbol .semicolon])) f
        (added ++ [.warning p .possibleBug]) s') fun _ _ => False := by
  refine (hbody h₁.here h₁.passes.tokens).required.bind ?_
  intro _ s₂ h₂
  obtain ⟨f, added, hf, h₂⟩ := h₂
  have h₂ := h₁.trans h₂ rfl
  have hmark := State.lookahead_of_kinds (h₂.passes.kinds_eq (by simpa using hkinds))
  refine (expect_goes h₂ hmark).bind fun _ s₃ h₃ => ?_
  refine (warn_goes h₃ _ _).bind fun _ s₄ h₄ => ⟨rfl, f, added, hf, ?_⟩
  simpa using h₄.behind

/-- A marked statement is read if statements are, and there is a warning where it begins. -/
theorem matches_bugStatement {first : Token.Kind → Bool} {statement : Production Bool}
    (hs : Matches options bound first Item.IsStatement statement) :
    Matches options (bound + 1) (fun k => k = .keyword .bug)
      (fun i => ∃ body, i = .statement (.bug body)) (bugStatement statement) := by
  have := hs.onward
  refine .of_accept (by simp) (bugRest statement) (fun _ => rfl)
    (onward_fine.bugStatement onward_fine.warn hs.onward) ?_ ?_ ?_
  · rintro _ ⟨body, rfl⟩
    exact ⟨_, rfl⟩
  · rintro s s₁ σ o d h h₁ hoptions hbound _ k ahead f ⟨body, rfl⟩ hkinds hk hclosed hlower
    have hkinds : s.kinds = .keyword .bug :: (body.kinds ++ .symbol .semicolon :: k :: ahead) := by
      simpa [Item.kinds, Stmt.kinds] using hkinds
    have hlength : (s.tokens.drop 1).length ≤ bound := h₁.passes.tokens ▸ hbound
    -- the body is followed by a semicolon, which ends any statement
    have hbody := hs.yieldsAt hlength ⟨body, rfl⟩ (kinds_drop [.keyword .bug] hkinds)
      (body.goesOn_of_ends (by simp) Expr.goesOn_semicolon) hclosed hoptions hlower
    refine (bug_goes h₁ hkinds hbody _).imp ?_
    rintro a s₂ ⟨ha, _, _, ⟨rfl, rfl⟩, h₂⟩
    exact ⟨ha,
      by simpa [Item.kinds, Stmt.kinds, Item.warnings, Stmt.warnings, State.tokens] using h₂⟩
  · intro s s₁ σ o d h h₁ hoptions hbound
    refine (required_accepts hs h₁.here hoptions hbound).then ?_
    rintro _ s₂ ⟨body, f, hclosed, hlower, hnext, h₂⟩
    refine (expect_accepts (h₁.trans h₂ rfl) .semicolon).then fun _ s₃ h₃ => ?_
    refine (warn_goes (E := fun _ _ => True) h₃ _ _).then fun _ s₄ h₄ => accepts_pure ⟨rfl, ?_⟩
    refine ⟨.statement (.bug body), f, ⟨body, rfl⟩, hclosed, hlower, rfl, ?_⟩
    -- the warnings of the body are told from the tokens behind the keyword
    rw [h₁.passes.tokens] at h₄
    simpa [Item.kinds, Stmt.kinds, Item.warnings, Stmt.warnings, State.tokens] using h₄.behind

/-! ### Stopping the flow of control -/

section

variable {expression : Production (Option Ty)} (he : Reads options bound .relation expression)
include he

/-- A value is returned exactly if the method has one.  The type of the method decides whether an
expression is looked for. -/
theorem returnValue_goes (h : s.At σ o d) (hoptions : σ.options = options)
    (hbound : s.tokens.length ≤ bound) {value : Option (Expr .relation)} {rest : List Token.Kind}
    {f : Fragment} (hkinds : s.kinds = (value.map Expr.kinds).getD [] ++ .symbol .semicolon :: rest)
    (hlower : (Stmt.ret value).lower? σ = some f) :
    Ends (returnValue expression σ.returnType) s (fun _ s' => ∃ code, f = .plain (code ++ [.ret]) ∧
      s.Moves σ o d ((value.map Expr.kinds).getD []) (.plain code) [] s') fun _ _ => False := by
  unfold returnValue
  cases value with
  | none =>
    obtain ⟨⟨-, hvoid⟩, rfl⟩ := Stmt.lower?_ret_none.mp hlower
    rw [if_pos hvoid]
    exact ⟨[], rfl, h.moves⟩
  | some e =>
    obtain ⟨code, hcode, ⟨-, hvoid⟩, rfl⟩ := Stmt.lower?_ret_some.mp hlower
    rw [if_neg hvoid]
    refine (expressionOf_goes he h hoptions hbound _ hkinds e.goesOn_semicolon hcode).imp
      fun _ s₁ h₁ => ⟨code, rfl, h₁⟩

theorem returnValue_accepts (hstop : options.stopStatements = true) (h : s.At σ o d)
    (hoptions : σ.options = options) (hbound : s.tokens.length ≤ bound) :
    Accepts (returnValue expression σ.returnType) s fun _ s' =>
      ∃ (value : Option (Expr .relation)) (code : List Operation),
        (Stmt.ret value).lower? σ = some (.plain (code ++ [.ret])) ∧
        s.Moves σ o d ((value.map Expr.kinds).getD []) (.plain code) [] s' := by
  have hstop : σ.options.stopStatements = true := hoptions ▸ hstop
  unfold returnValue
  by_cases hvoid : σ.returnType = .void
  · rw [if_pos hvoid]
    exact accepts_pure ⟨none, [], Stmt.lower?_ret_none.mpr ⟨⟨hstop, hvoid⟩, rfl⟩, h.moves⟩
  · rw [if_neg hvoid]
    refine (expressionOf_accepts he h hoptions hbound _).mono ?_
    rintro _ s₁ ⟨e, code, hcode, -, h₁⟩
    exact ⟨some e, code, Stmt.lower?_ret_some.mpr ⟨code, hcode, ⟨hstop, hvoid⟩, rfl⟩, h₁⟩

/-- A method is left with its value if expressions are read.  The type of the value is the one the
method is declared with. -/
theorem matches_returnStatement (hstop : options.stopStatements = true) :
    Matches options (bound + 1) (fun k => k = .keyword .return)
      (fun i => ∃ value, i = .statement (.ret value)) (returnStatement expression) := by
  have hvalue (expected : Ty) : Onward (returnValue expression expected) :=
    onward_fine.returnValue he.onward expected
  refine .of_accept (by simp) (fun _ => do
      let expected ← assemble .returnType
      returnValue expression expected
      expect .semicolon
      emit .ret
      return true)
    (fun _ => rfl) (onward_fine.returnStatement he.onward) ?_ ?_ ?_
  · rintro _ ⟨value, rfl⟩
    exact ⟨_, rfl⟩
  · rintro s s₁ σ o d h h₁ hoptions hbound _ k ahead f ⟨value, rfl⟩ hkinds hk hclosed hlower
    have hkinds : s.kinds = [.keyword .return] ++ ((value.map Expr.kinds).getD [] ++
        .symbol .semicolon :: k :: ahead) := by
      simpa [Item.kinds, Stmt.kinds] using hkinds
    refine (returnType_goes h₁).bind ?_
    rintro _ s₂ ⟨rfl, h₂⟩
    have hlength₁ := h₁.passes.length_tokens
    have hlength₂ := h₂.passes.length_tokens
    refine (returnValue_goes he h₂.here hoptions (by omega)
      (h₂.passes.kinds_eq hkinds) hlower).bind ?_
    rintro _ s₃ ⟨code, rfl, h₃⟩
    have h₃ := h₂.trans h₃ rfl
    have hmark := State.lookahead_of_kinds (h₃.passes.kinds_eq (by simpa using hkinds))
    refine (expect_goes h₃ hmark).bind fun _ s₄ h₄ => ?_
    refine (emit_moves h₄.behind .ret).bind fun _ s₅ h₅ => ⟨rfl, ?_⟩
    simpa [Item.kinds, Stmt.kinds, Item.warnings, Stmt.warnings] using h₅
  · intro s s₁ σ o d h h₁ hoptions hbound
    refine (returnType_goes (E := fun _ _ => True) h₁).then ?_
    rintro _ s₂ ⟨rfl, h₂⟩
    have hlength₁ := h₁.passes.length_tokens
    have hlength₂ := h₂.passes.length_tokens
    refine (returnValue_accepts he hstop h₂.here hoptions (by omega)).then ?_
    rintro _ s₃ ⟨value, code, hlower, h₃⟩
    refine (expect_accepts (h₂.trans h₃ rfl) .semicolon).then fun _ s₄ h₄ => ?_
    refine (emit_moves (E := fun _ _ => True) h₄.behind .ret).then fun _ s₅ h₅ =>
      accepts_pure ⟨rfl, ?_⟩
    refine ⟨.statement (.ret value), _, ⟨value, rfl⟩, rfl, hlower, rfl, ?_⟩
    simpa [Item.kinds, Stmt.kinds, Item.warnings, Stmt.warnings] using h₅

end

/-- A branch out of a round goes where the loop is left for, because the innermost loop of the state
is that of the site. -/
theorem branchOut_moves {exit : Exit} {loop : Loop} (h : s.Goes o ks added s₁ σ d [])
    (hloop : s.loops.head? = some loop) :
    Ends (assemble (.branch (exit.label loop))) s₁ (fun _ s₂ => s.Moves σ o d ks
      (.jump [] (.branch ((d.exits loop).target exit)) []) added s₂) E := by
  rw [← h.loops] at hloop
  obtain ⟨hmethod, hlt⟩ := (h.here.steady.loops loop (List.mem_of_head? hloop)).label exit
  have hlabel : exit.label loop = ⟨σ.method, (exit.label loop).index⟩ := by rw [← hmethod]
  rw [hlabel]
  refine (branch_goes h hlt).imp fun _ s₂ h₂ => ?_
  rw [State.Moves, Draft.target_exits, Site.past_jump]
  simpa [Draft.extend, Fragment.jump] using h₂

/-- What follows the keyword of a statement that leaves a loop. -/
def leaveRest (exit : Exit) (stray : Stray) (p : Position) : Production Bool := do
  match ← view (·.loops.head?) with
  | none => halt (.fatal ⟨p, stray⟩)
  | some loop =>
    expect .semicolon
    assemble (.branch (exit.label loop))
    return true

/-- Inside a loop it can be left, either way.  The innermost loop of the state is the one that is
meant. -/
theorem matches_leaveStatement (hstop : options.stopStatements = true) (exit : Exit)
    (stray : Stray) :
    Matches options (bound + 1) (fun k => k = .keyword exit.word)
      (fun i => i = .statement (.leave exit)) (leaveStatement exit.word stray exit.label) := by
  refine .of_accept (by simp) (leaveRest exit stray) (fun _ => rfl)
    (onward_fine.leaveStatement _ _ _) ?_ ?_ ?_
  · rintro _ rfl
    exact ⟨_, rfl⟩
  · rintro s s₁ σ o d h h₁ hoptions hbound _ k ahead f rfl hkinds hk hclosed hlower
    obtain ⟨exits, hexits, -, rfl⟩ := Stmt.lower?_leave.mp hlower
    -- that the statement means something tells that there is a loop
    rw [h.fits.loop, Option.map_eq_some_iff] at hexits
    obtain ⟨loop, hloop, rfl⟩ := hexits
    refine ends_bind.mpr (ends_view.mpr ?_)
    rw [h₁.loops, hloop]
    have hmark := State.lookahead_of_kinds (h₁.passes.kinds_eq hkinds)
    refine (expect_goes h₁ hmark).bind fun _ s₂ h₂ => ?_
    exact (branchOut_moves h₂ hloop).bind fun _ s₃ h₃ => ⟨rfl, h₃⟩
  · intro s s₁ σ o d h h₁ hoptions hbound
    refine accepts_view ?_
    rw [h₁.loops]
    cases hloop : s.loops.head? with
    | none =>
      -- outside of all loops the pass is halted
      exact fun _ _ hrun => by cases hrun
    | some loop =>
      refine (expect_accepts h₁ .semicolon).then fun _ s₂ h₂ => ?_
      refine (branchOut_moves (E := fun _ _ => True) h₂ hloop).then fun _ s₃ h₃ =>
        accepts_pure ⟨rfl, .statement (.leave exit), _, rfl, rfl, ?_, rfl, h₃⟩
      refine Stmt.lower?_leave.mpr ⟨d.exits loop, ?_, hoptions ▸ hstop, rfl⟩
      rw [h.fits.loop, hloop]
      rfl

/-! ### All forms -/

section

variable {expression : Production (Option Ty)}

/-- The statements that stop the flow of control are read if they are enabled.  If they are not,
nothing is tried, and no tree with one of them means anything. -/
theorem matches_stopStatements (he : Reads options bound .relation expression) :
    Matches options (bound + 1) Token.Kind.beginsStop
      (fun i => options.stopStatements = true ∧ i.stops = true)
      (firstOf (if options.stopStatements then stopStatements expression else [])) := by
  have hbegins (item : Item) (hitem : options.stopStatements = true ∧ item.stops = true) :
      ∃ k rest, item.kinds = k :: rest ∧ k.beginsStop = true := by
    rcases item with _ | _ | t
    · cases hitem.2
    · cases hitem.2
    · cases t with
      | ret value => exact ⟨_, _, rfl, rfl⟩
      | leave exit => exact ⟨_, _, rfl, by cases exit <;> rfl⟩
      | _ => cases hitem.2
  by_cases hstop : options.stopStatements = true
  · rw [if_pos hstop]
    have hcontinue := (matches_leaveStatement hstop .continue .continue).firstOf_cons_of_kind
      (.firstOf_nil options (bound + 1)) rfl
    have hleave := (matches_leaveStatement hstop .break .break).firstOf_cons_of_kind hcontinue rfl
    refine ((matches_returnStatement he hstop).firstOf_cons_of_kind hleave rfl).of_iff ?_ hbegins ?_
    · intro k hk
      simp only [Bool.or_eq_true, decide_eq_true_eq, Bool.or_false] at hk
      rcases hk with rfl | rfl | rfl <;> rfl
    · rintro item σ f - -
      simp only [hstop, true_and, or_false]
      constructor
      · rintro (⟨value, rfl⟩ | rfl | rfl) <;> rfl
      · intro hitem
        rcases item with _ | _ | t
        · cases hitem
        · cases hitem
        · cases t with
          | ret value => exact .inl ⟨value, rfl⟩
          | leave exit => cases exit <;> simp
          | _ => cases hitem
  · rw [if_neg hstop]
    -- nothing is read, and there is nothing to read
    exact (Matches.firstOf_nil options (bound + 1)).of_iff (by simp) hbegins (by simp [hstop])

variable {first first' : Token.Kind → Bool} {statement item : Production Bool} {budget : Nat}
  (he : Reads options (bound + 1) .relation expression)
  (hs : Matches options bound first Item.IsStatement statement)
  (hi : Matches options bound first' (fun _ => True) item)
include he hs hi

/-- Statements are read if the expressions, statements and items in them are.  No two forms begin
with the same token, so the order in which they are tried does not matter. -/
theorem matches_statementForms (hbrace : first' (.symbol .rightBrace) = false)
    (hbudget : bound ≤ budget + 1) :
    Matches options (bound + 1) Token.Kind.beginsStmt Item.IsStatement
      (firstOf (statementForms options budget expression statement item)) := by
  -- the forms are put in front of each other, beginning with the last one
  have he' := he.mono (Nat.le_succ bound)
  have hbug := (matches_bugStatement hs).firstOf_cons_of_kind (matches_stopStatements he') rfl
  have hprint := matches_printStatement.firstOf_cons_of_kind hbug rfl
  have hempty := matches_semicolon.firstOf_cons_of_kind hprint rfl
  have hexpression := (matches_expressionStatement he).firstOf_cons hempty fun k hk => by
    simp only [Bool.or_eq_true, decide_eq_true_eq] at hk
    rcases hk with rfl | rfl | rfl | hk
    · rfl
    · rfl
    · rfl
    · exact Token.Kind.beginsExpr_of_beginsStop hk
  have hloop := (matches_loop he' hs).firstOf_cons_of_kind hexpression rfl
  have hconditional := (matches_conditional he' hs).firstOf_cons_of_kind hloop rfl
  -- together the forms are all statements that mean something
  refine ((matches_block hi hbrace hbudget).firstOf_cons_of_kind hconditional rfl).of_iff ?_ ?_ ?_
  · intro k hk
    simp only [Bool.or_eq_true, decide_eq_true_eq] at hk
    rcases hk with rfl | rfl | rfl | hk | rfl | rfl | rfl | hk
    · rfl
    · rfl
    · rfl
    · exact Token.Kind.beginsStmt_of_beginsExpr hk
    · rfl
    · rfl
    · rfl
    · exact Token.Kind.beginsStmt_of_beginsStop hk
  · rintro _ ⟨t, rfl⟩
    exact t.kinds_eq_cons
  · intro item σ f hoptions hlower
    have hstop := Item.stopStatements_of_stops hlower
    rw [hoptions] at hstop
    rcases item with _ | _ | t
    · simp [Item.IsStatement, Item.stops]
    · simp [Item.IsStatement, Item.stops]
    · refine ⟨fun _ => ⟨t, rfl⟩, fun _ => ?_⟩
      cases t with
      | ret value => simp [hstop rfl, Item.stops]
      | leave exit => simp [hstop rfl, Item.stops]
      | _ => simp

end

end Production

end OnePass
