import OnePass.Proofs.Translation

/-!
# Doing without stop statements

Without `return`, `break` and `continue` there are fewer statements, and the others are what
they were.  A tree in which one of these keywords stands means nothing without them, and any
other tree means the same with and without.

## Main definitions

* `Token.Kind.stops` — the keywords that begin a stop statement.
* `Site.stopping` — a place of the source, with or without stop statements.

## Main results

* `Items.lower?_stopping` — what statement lists mean without stop statements.
* `compile_stopless_iff` — **stop statements are a conservative extension**.
-/

namespace OnePass

/-- The keywords that begin a stop statement.  They are keywords in any case, also where there are
no such statements. -/
def Keyword.stops : Keyword → Bool
  | .return => true
  | .break => true
  | .continue => true
  | _ => false

/-- The tokens that begin a stop statement. -/
def Token.Kind.stops : Token.Kind → Bool
  | .keyword word => word.stops
  | _ => false

/-! ### Where no stop statement begins -/

/-- No type is named by such a keyword, so that none can stand in a declaration. -/
theorem Keyword.ofKeyword?_of_stops {w : Keyword} (h : w.stops = true) :
    Ty.ofKeyword? w = none := by
  cases w <;> first | rfl | cases h

/-- Where none of the keywords stands, no stop statement begins. -/
theorem Token.Kind.any_stops_eq_false {ks : List Token.Kind}
    (h : ∀ w : Keyword, w.stops = true → .keyword w ∉ ks) : ks.any stops = false := by
  refine List.any_eq_false.mpr fun k hk hstops => ?_
  cases k with
  | keyword w => exact h w hstops hk
  | _ => cases hstops

/-- No stop statement is part of an expression. -/
@[simp] theorem Expr.any_stops_kinds {r : Rung} (e : Expr r) :
    e.kinds.any Token.Kind.stops = false :=
  Token.Kind.any_stops_eq_false fun w _ => e.keyword_notMem_kinds w

@[simp] theorem Expr.any_stops_conditionKinds (e : Expr .relation) :
    e.conditionKinds.any Token.Kind.stops = false :=
  Token.Kind.any_stops_eq_false fun w _ => e.keyword_notMem_conditionKinds w

@[simp] theorem TypeName.stops_word (type : TypeName) : type.word.stops = false :=
  Bool.eq_false_iff.mpr fun h => type.word_ne _ (Keyword.ofKeyword?_of_stops h) rfl

@[simp] theorem Declarator.any_stops_headerKinds (type : TypeName) (name : String)
    (ds : List Declarator) (comma : Bool) :
    (headerKinds type name ds comma).any Token.Kind.stops = false :=
  Token.Kind.any_stops_eq_false fun _ h =>
    keyword_notMem_headerKinds (Keyword.ofKeyword?_of_stops h) type name ds comma

/-! ### What trees mean without them -/

namespace Site

/-- The same place, with or without stop statements.  Nothing else depends on that option. -/
def stopping (σ : Site) (stops : Bool) : Site :=
  { σ with options := { σ.options with stopStatements := stops } }

variable (σ : Site) (stops : Bool)

theorem past_stopping (f : Fragment) : (σ.stopping stops).past f = (σ.past f).stopping stops := rfl

theorem within_stopping (exits : Exits) :
    (σ.stopping stops).within exits = (σ.within exits).stopping stops := rfl

theorem body_stopping (ty : Ty) (x : String) (ds : List Declarator) :
    (σ.stopping stops).body ty x ds = (σ.body ty x ds).stopping stops := rfl

end Site

variable {σ : Site}

/-- Expressions mean the same with and without stop statements, since their meaning does not depend
on that option. -/
theorem Expr.lower?_stopping (stops : Bool) : ∀ {r : Rung} (e : Expr r),
    e.lower? (σ.stopping stops) = e.lower? σ
  | _, .number _ => rfl
  | _, .boolean _ => rfl
  | _, .name _ => rfl
  | _, .assign _ value => by
    have hstore (x : String) : (σ.stopping stops).store? x = σ.store? x := rfl
    simp only [lower?, value.lower?_stopping stops, hstore]
  | _, .factor e => e.lower?_stopping stops
  | _, .product left _ right => by
    simp only [lower?, left.lower?_stopping stops, right.lower?_stopping stops]
  | _, .unsigned e => e.lower?_stopping stops
  | _, .signed _ e => by simp only [lower?, e.lower?_stopping stops]
  | _, .first e => e.lower?_stopping stops
  | _, .sum left _ right => by
    simp only [lower?, left.lower?_stopping stops, right.lower?_stopping stops]
  | _, .single e => e.lower?_stopping stops
  | _, .comparison left _ right => by
    simp only [lower?, left.lower?_stopping stops, right.lower?_stopping stops]

theorem Expr.lowerTo?_stopping (stops : Bool) (expected : Ty) (e : Expr .relation) :
    e.lowerTo? (σ.stopping stops) expected = e.lowerTo? σ expected := by
  simp only [lowerTo?, e.lower?_stopping stops]

/-- Whether the keyword of a stop statement stands in a statement, be it in a block or in a method
within. -/
def Stmt.hasStop (t : Stmt) : Bool := t.kinds.any Token.Kind.stops

/-- The same for an item. -/
def Item.hasStop (item : Item) : Bool := item.kinds.any Token.Kind.stops

/-- The same for a statement list. -/
def Items.hasStop (items : Items) : Bool := items.kinds.any Token.Kind.stops

section

variable (condition : Expr .relation) (body other : Stmt) (items : Items)

theorem Stmt.hasStop_block : (block items).hasStop = items.hasStop := by
  simp [hasStop, kinds, Items.hasStop, Token.Kind.stops]

theorem Stmt.hasStop_branch : (branch condition body).hasStop = body.hasStop := by
  simp [hasStop, kinds, Token.Kind.stops, Keyword.stops]

theorem Stmt.hasStop_choice :
    (choice condition body other).hasStop = (body.hasStop || other.hasStop) := by
  simp [hasStop, kinds, Token.Kind.stops, Keyword.stops]

theorem Stmt.hasStop_loop : (loop condition body).hasStop = body.hasStop := by
  simp [hasStop, kinds, Token.Kind.stops, Keyword.stops]

theorem Stmt.hasStop_expression : (expression condition).hasStop = false :=
  condition.any_stops_kinds

theorem Stmt.hasStop_bug : (bug body).hasStop = body.hasStop := by
  simp [hasStop, kinds, Token.Kind.stops, Keyword.stops]

theorem Stmt.hasStop_ret (value : Option (Expr .relation)) : (ret value).hasStop = true := by
  simp [hasStop, kinds, Token.Kind.stops, Keyword.stops]

theorem Stmt.hasStop_leave (exit : Exit) : (leave exit).hasStop = true := by
  cases exit <;> rfl

theorem Item.hasStop_field (type : TypeName) (x : String) : (field type x).hasStop = false := by
  simp [hasStop, kinds, Token.Kind.stops]

theorem Item.hasStop_method (type : TypeName) (x : String) (ds : List Declarator) (comma : Bool) :
    (method type x ds comma items).hasStop = items.hasStop := by
  simp [hasStop, kinds, Items.hasStop, Token.Kind.stops]

theorem Items.hasStop_cons (item : Item) :
    (cons item items).hasStop = (item.hasStop || items.hasStop) := by
  simp [hasStop, kinds, Item.hasStop]

end

mutual

/-- Without stop statements a statement means nothing if one of their keywords stands in it, and
otherwise what it means with them.  By recursion on the statement: a part with such a keyword means
nothing, and so does the whole. -/
theorem Stmt.lower?_stopping : ∀ (t : Stmt) (σ : Site), t.lower? (σ.stopping false) =
    if t.hasStop then none else t.lower? (σ.stopping true)
  | .block items, σ => by
    rw [Stmt.hasStop_block]
    exact items.lower?_stopping σ
  | .branch condition body, σ => by
    simp only [Stmt.lower?, Expr.lowerTo?_stopping, Site.past_stopping, body.lower?_stopping,
      Stmt.hasStop_branch]
    -- a body that means nothing leaves the branch without a meaning
    cases body.hasStop with
    | true => simp
    | false => rfl
  | .choice condition body other, σ => by
    simp only [Stmt.lower?, Expr.lowerTo?_stopping, Site.past_stopping, body.lower?_stopping,
      other.lower?_stopping, Stmt.hasStop_choice]
    -- either of the two bodies can spoil the whole
    cases body.hasStop with
    | true => simp
    | false =>
      cases other.hasStop with
      | true => simp
      | false => rfl
  | .loop condition body, σ => by
    simp only [Stmt.lower?, Expr.lowerTo?_stopping, Site.past_stopping, Site.within_stopping,
      body.lower?_stopping, Stmt.hasStop_loop]
    cases body.hasStop with
    | true => simp
    | false => rfl
  | .expression e, σ => by
    simp only [Stmt.lower?, Expr.lower?_stopping, Stmt.hasStop_expression]
    rfl
  | .empty, _ => rfl
  | .print none, _ => rfl
  | .print (some _), _ => rfl
  | .bug body, σ => by
    rw [Stmt.hasStop_bug]
    exact body.lower?_stopping σ
  | .ret none, _ => rfl
  -- a stop statement has no meaning without the option, whatever its value means
  | .ret (some e), σ => by
    simp [Stmt.lower?, Site.stopping, Stmt.hasStop_ret]
  | .leave exit, σ => by
    simp [Stmt.lower?, Site.stopping, Stmt.hasStop_leave]

theorem Item.lower?_stopping : ∀ (item : Item) (σ : Site), item.lower? (σ.stopping false) =
    if item.hasStop then none else item.lower? (σ.stopping true)
  | .field type x, σ => by
    rw [Item.hasStop_field]
    rfl
  | .method type x ds comma body, σ => by
    simp only [Item.lower?, Site.body_stopping, body.lower?_stopping, Item.hasStop_method]
    cases body.hasStop with
    | true => simp
    | false => rfl
  | .statement t, σ => t.lower?_stopping σ

/-- **What a statement list means without stop statements**: nothing if one of their keywords stands
in it, and otherwise the same. -/
theorem Items.lower?_stopping : ∀ (items : Items) (σ : Site), items.lower? (σ.stopping false) =
    if items.hasStop then none else items.lower? (σ.stopping true)
  | .nil, _ => rfl
  | .cons item rest, σ => by
    simp only [Items.lower?, Site.past_stopping, item.lower?_stopping, rest.lower?_stopping,
      Items.hasStop_cons]
    cases item.hasStop with
    | true => simp
    | false => cases rest.hasStop <;> simp

end

/-! ### Sources -/

/-- The programs of a statement list with and without stop statements.  Both begin at the same site,
up to that option. -/
theorem Items.program?_stopless {options : Options} {items : Items} :
    items.program? { options with stopStatements := false } =
      if items.hasStop then none else items.program? { options with stopStatements := true } := by
  have hlower : items.lower? (.entry { options with stopStatements := false }) =
      if items.hasStop then none else
        items.lower? (.entry { options with stopStatements := true }) :=
    items.lower?_stopping (.entry options)
  unfold Items.program?
  rw [hlower]
  cases items.hasStop <;> rfl

/-- Among the tokens of a tree and the end of the input, those of the tree can begin a stop
statement.  So whether there is one can be told from the source. -/
theorem Writes.hasStop_eq {source : String} {items : Items} {tokens : List Token}
    (h : Writes source items tokens) :
    items.hasStop = (sourceKinds source).any Token.Kind.stops := by
  obtain ⟨hscans, hkinds⟩ := h
  rw [hscans.sourceKinds_eq, hkinds, List.any_append]
  simp [Items.hasStop, Token.Kind.stops]

/-- **Stop statements are a conservative extension.**  A source compiles without them exactly if
it compiles with them, the other options being the same, and none of their keywords stands in it.
The program and the reports are then the same. -/
theorem compile_stopless_iff {options : Options} {source : String} {c : Compilation} :
    compile { options with stopStatements := false } source = .ok c ↔
      compile { options with stopStatements := true } source = .ok c ∧
        (sourceKinds source).any Token.Kind.stops = false := by
  constructor
  · intro h
    obtain ⟨items, tokens, hwrites, hclosed, hprogram, hwarnings⟩ := compile_eq_ok_iff.mp h
    -- the program is there, so no keyword of a stop statement stands in the tree
    rw [Items.program?_stopless, Option.ite_none_left_eq_some] at hprogram
    obtain ⟨hstop, hprogram⟩ := hprogram
    refine ⟨compile_eq_ok_iff.mpr ⟨items, tokens, hwrites, hclosed, hprogram, hwarnings⟩, ?_⟩
    rw [← hwrites.hasStop_eq]
    exact Bool.eq_false_iff.mpr hstop
  · rintro ⟨h, hstop⟩
    obtain ⟨items, tokens, hwrites, hclosed, hprogram, hwarnings⟩ := compile_eq_ok_iff.mp h
    refine compile_eq_ok_iff.mpr ⟨items, tokens, hwrites, hclosed, ?_, hwarnings⟩
    -- without such a keyword the two programs are the same
    rw [Items.program?_stopless, hwrites.hasStop_eq, hstop]
    exact hprogram

end OnePass
