import OnePass.Proofs.Insertion
import OnePass.Proofs.Recovery

/-!
# A mistake stays in its statement

A tree that stands for a program is spoiled by a faulty statement in one of its statement lists.
All around the statement the tree is read as it would have been without it.

## Main definitions

* `Among` — among some warnings, one error has been reported.
* `Mends` — a part of the tree has been read in spite of the mistake in it.
* `Production.Runs` — a production reads statement lists.
* `Production.Traps` — at a site, some tokens are one mistake.
* `Stmt.Heals`, `Item.Heals`, `Items.Heals` — a part with these tokens inserted is read in spite of
  them.

## Main results

* `Production.item_spoils` — a faulty simple statement is one mistake.
* `Items.Spot.heals` — **the rest of the tree is read as it is meant**.
* `parse_of_inserts` — **one faulty statement is one error, and changes nothing else**.
-/

namespace OnePass

/-! ### Reports -/

/-- Among so many warnings, one error has been reported at one of the tokens.  The warnings come
from what is read around the mistake. -/
def Among (tokens : List Token) (warnings : Nat) (added : List Diagnostic) : Prop :=
  ∃ (front back : List Diagnostic) (t : Token) (e : ParseError), t ∈ tokens ∧
    (∀ d ∈ front ++ back, d.isError = false) ∧ (front ++ back).length = warnings ∧
    added = front ++ .parse t.position e :: back

namespace Among

variable {tokens : List Token} {warnings : Nat} {added more : List Diagnostic}

theorem append_left (h : Among tokens warnings added) (hmore : ∀ d ∈ more, d.isError = false) :
    Among tokens (more.length + warnings) (more ++ added) := by
  obtain ⟨front, back, t, e, ht, hwarnings, rfl, rfl⟩ := h
  refine ⟨more ++ front, back, t, e, ht, ?_, by simp, by simp⟩
  rw [List.append_assoc]
  exact List.forall_mem_append.mpr ⟨hmore, hwarnings⟩

theorem append_right (h : Among tokens warnings added) (hmore : ∀ d ∈ more, d.isError = false) :
    Among tokens (warnings + more.length) (added ++ more) := by
  obtain ⟨front, back, t, e, ht, hwarnings, rfl, rfl⟩ := h
  refine ⟨front, back ++ more, t, e, ht, ?_, by simp [Nat.add_assoc], by simp⟩
  rw [← List.append_assoc]
  exact List.forall_mem_append.mpr ⟨hwarnings, hmore⟩

end Among

/-- Instead of `f` the fragment `g` has been read in a loop or outside of loops: it declares the
same, and one error has been reported on the way. -/
structure Mends (loop : Option Exits) (f : Fragment) (tokens : List Token) (warnings : Nat)
    (g : Fragment) (added : List Diagnostic) : Prop where
  alike : g.Alike f
  leaves : g.Leaves loop
  among : Among tokens warnings added

namespace Production

/-! ### The forms of an item -/

section

variable {options : Options} {budget : Nat} {s : State} {Q : Bool → State → Prop}
  {E : Halt → State → Prop}

/-- A form that does not match is passed over, and the state is the same for the next one. -/
theorem firstOf_pass {p : Production Bool} {forms : List (Production Bool)}
    (hp : p s = .ok false s) (h : Ends (firstOf forms) s Q E) : Ends (firstOf (p :: forms)) s Q E :=
  ends_bind.mpr (ends_of_ok hp h)

/-- A form that matches is the last one tried. -/
theorem firstOf_take {p : Production Bool} {forms : List (Production Bool)} {R : State → Prop}
    (h : Ends p s (fun a s' => a = true ∧ R s') E) :
    Ends (firstOf (p :: forms)) s (fun a s' => a = true ∧ R s') E := by
  refine Ends.bind h ?_
  rintro _ s' ⟨rfl, hR⟩
  exact ⟨rfl, hR⟩

/-- A statement has one of several forms, which are tried one after the other. -/
theorem statement_ends (h : Ends (firstOf (statementForms options budget
      (expression options (budget + 1)) (statement options budget) (item options budget))) s Q E) :
    Ends (statement options (budget + 1)) s Q E := h

variable (hsettled : s.recovering = false)
include hsettled

/-- Where an item begins, recovery is over, and otherwise nothing changes. -/
theorem item_ends
    (h : Ends (firstOf [declaration options budget, statement options budget]) s Q E) :
    Ends (item options budget) s Q E := by
  refine ends_bind.mpr (ends_modify.mpr ?_)
  show Ends (firstOf _) s.settle _ _
  rw [State.settle_of_settled hsettled]
  exact h

section

variable {k : Token.Kind} (hlook : s.lookahead.kind = k)
include hlook

theorem block_refuses (hk : k ≠ .symbol .leftBrace) :
    block budget (item options budget) s = .ok false s :=
  (matches_block (matches_item options budget) rfl (Nat.le_succ _)).refuses hsettled
    (by simpa [hlook] using hk)

theorem conditional_refuses (hk : k ≠ .keyword .if) :
    conditional (expression options (budget + 1)) (statement options budget) s = .ok false s :=
  (matches_conditional ((reads_expression options (budget + 1)).mono (Nat.le_succ _))
    (matches_declaration_and_statement options budget).2).refuses hsettled
    (by simpa [hlook] using hk)

theorem loop_refuses (hk : k ≠ .keyword .while) :
    loop (expression options (budget + 1)) (statement options budget) s = .ok false s :=
  (matches_loop ((reads_expression options (budget + 1)).mono (Nat.le_succ _))
    (matches_declaration_and_statement options budget).2).refuses hsettled
    (by simpa [hlook] using hk)

theorem expressionStatement_refuses (hk : k.beginsExpr = false) :
    expressionStatement (expression options (budget + 1)) s = .ok false s :=
  (matches_expressionStatement (reads_expression options (budget + 1))).refuses hsettled
    (by rw [hlook, hk])

theorem semicolon_refuses (hk : k ≠ .symbol .semicolon) :
    accept (.symbol .semicolon) s = .ok false s :=
  if_neg (by simpa [State.current?, hsettled, hlook] using hk)

theorem printStatement_refuses (hk : k ≠ .keyword .printf) :
    printStatement options s = .ok false s := by
  have hprint : Matches options 1 _ _ (printStatement options) := matches_printStatement
  exact hprint.refuses hsettled (by simpa [hlook] using hk)

end

/-- No statement is a declaration, so that form is passed over. -/
theorem declaration_refuses (hlook : s.lookahead.kind.beginsStmt = true) :
    declaration options budget s = .ok false s :=
  (matches_declaration_and_statement options budget).1.refuses hsettled
    (Token.Kind.beginsDecl_of_beginsStmt hlook)

end

/-! ### Faulty simple statements -/

section

variable {options : Options} {budget : Nat} {s : State} {σ : Site} {o : Outline} {d : Draft}

/-- An expression is tried after the forms that begin with a brace or a keyword, none of which
matches where one begins. -/
theorem spoils_of_expression {ks gone : List Token.Kind} (hsettled : s.recovering = false)
    (hlook : s.lookahead.kind.beginsExpr = true)
    (h : Spoils (expressionStatement (expression options (budget + 1))) s σ o d ks gone) :
    Spoils (item options (budget + 1)) s σ o d ks gone := by
  have hne {k : Token.Kind} (hk : k.beginsExpr = false) : s.lookahead.kind ≠ k := by
    rintro rfl
    rw [hk] at hlook
    cases hlook
  refine item_ends hsettled (firstOf_pass (declaration_refuses hsettled
    (Token.Kind.beginsStmt_of_beginsExpr hlook)) (firstOf_take (statement_ends ?_)))
  exact firstOf_pass (block_refuses hsettled rfl (hne rfl))
    (firstOf_pass (conditional_refuses hsettled rfl (hne rfl))
    (firstOf_pass (loop_refuses hsettled rfl (hne rfl)) (firstOf_take h)))

/-- A faulty expression is one mistake.  If it does not end in an assignment, a semicolon follows
it. -/
theorem expression_spoils {e : Expr .relation} {line more beyond : List Token.Kind}
    (h : s.At σ o d) (hoptions : σ.options = options) (hbound : s.tokens.length ≤ budget)
    (hline : Line line) (hwhole : e.kinds ++ more = line ++ [.symbol .semicolon])
    (hkinds : s.kinds = e.kinds ++ more ++ beyond) (hk : ∀ k ∈ more.head?, e.goesOn k = false)
    (htidy : e.Tidy options.typing) (hlower : e.lower? σ = none) :
    Spoils (item options budget) s σ o d (e.kinds ++ more) (e.spill σ beyond) := by
  obtain ⟨budget, rfl⟩ := State.exists_budget hbound
  obtain ⟨k, ks, hks, hbegins⟩ := e.kinds_eq_cons
  have hlook : s.lookahead.kind = k := State.lookahead_of_kinds (by rw [hkinds, hks]; rfl)
  exact spoils_of_expression h.ready.settled (hlook ▸ hbegins)
    (expressionStatement_spoils h hoptions hbound hline hwhole hkinds hk htidy hlower)

/-- **A faulty simple statement is one mistake**: an expression without assignments, an assignment,
a field without values or a name that is printed. -/
theorem item_spoils {q : Simple} {rest : List Token.Kind} (h : s.At σ o d)
    (hoptions : σ.options = options) (hbound : s.tokens.length ≤ budget)
    (hkinds : s.kinds = q.kinds ++ rest) (hlower : q.item.lower? σ = none) :
    Spoils (item options budget) s σ o d q.kinds [] := by
  have hsettled := h.ready.settled
  cases q with
  | expression e hpure =>
    -- the semicolon behind the expression ends the statement
    have hks : (Simple.expression e hpure).kinds = e.kinds ++ [.symbol .semicolon] := by
      simp [Simple.kinds, Simple.before, Simple.item, Items.kinds, Item.kinds, Stmt.kinds]
    have hlower : e.lower? σ = none := eq_none_of_imp hlower fun _ ha =>
      ⟨_, Stmt.lower?_expression.mpr ⟨_, _, ha, rfl⟩⟩
    rw [hks] at hkinds ⊢
    have hspoils := expression_spoils h hoptions hbound (Expr.line_of_pure hpure) rfl hkinds
      (by simp) (.of_pure hpure) hlower
    rwa [Expr.spill_eq_nil (Expr.spills_of_pure σ hpure)] at hspoils
  | assignment x value hpure =>
    -- the assignment brings its own semicolon
    have hks : (Simple.assignment x value hpure).kinds =
        (Expr.single (.plain (.assign x value))).kinds ++ [] := by
      simp [Simple.kinds, Simple.before, Simple.item, Items.kinds, Item.kinds, Stmt.kinds,
        Expr.kinds, Expr.plain]
    have hlower : (Expr.single (.plain (.assign x value))).lower? σ = none :=
      eq_none_of_imp hlower fun _ ha => ⟨_, Stmt.lower?_expression.mpr ⟨_, _, ha, rfl⟩⟩
    obtain ⟨line, hline, hwhole⟩ :=
      Expr.exists_line (e := .single (.plain (.assign x value))) hpure rfl
    rw [hks] at hkinds ⊢
    have hspoils := expression_spoils h hoptions hbound hline ((List.append_nil _).trans hwhole)
      hkinds (by simp) ⟨hpure, .inr (.inr rfl)⟩ hlower
    rwa [Expr.spill_eq_nil (by rw [Expr.spills_of_isAssign σ rfl, hlower]; rfl)] at hspoils
  | voidField x =>
    obtain ⟨budget, rfl⟩ := State.exists_budget hbound
    exact item_ends hsettled (firstOf_take (voidField_spoils h rfl hkinds))
  | print x =>
    obtain ⟨budget, rfl⟩ := State.exists_budget hbound
    have hlook : s.lookahead.kind = .keyword .printf := State.lookahead_of_kinds hkinds
    have hload : σ.load? x = none := eq_none_of_imp hlower fun _ ha =>
      ⟨_, Stmt.lower?_print.mpr ⟨_, _, ha, rfl⟩⟩
    refine item_ends hsettled (firstOf_pass (declaration_refuses hsettled (by rw [hlook]; rfl))
      (firstOf_take (statement_ends ?_)))
    exact firstOf_pass (block_refuses hsettled hlook (by simp))
      (firstOf_pass (conditional_refuses hsettled hlook (by simp))
      (firstOf_pass (loop_refuses hsettled hlook (by simp))
      (firstOf_pass (expressionStatement_refuses hsettled hlook rfl)
      (firstOf_pass (semicolon_refuses hsettled hlook (by simp))
      (firstOf_take (printStatement_spoils h hkinds hload))))))

end

/-! ### Statement lists -/

/-- The production reads items, at most so many, up to the token `k`, which ends them all.  A list
that ends while an error is being recovered from is closed by `close`.  Blocks and whole programs
are two such productions. -/
structure Runs (options : Options) (budget : Nat) (k : Token.Kind) (rest : List Token.Kind)
    (run : Nat → Production Unit) (close : State → State) : Prop where
  ends : ∀ i : Item, i.goesOn k = false
  goes : ∀ {n : Nat} {s : State} {σ : Site} {o : Outline} {d : Draft} {items : Items}
    {f : Fragment}, s.At σ o d → σ.options = options → s.tokens.length ≤ budget →
    s.tokens.length ≤ n + 1 → s.kinds = items.kinds ++ k :: rest → items.closed = true →
    items.lower? σ = some f →
    Ends (run n) s (fun _ s' => s.Moves σ o d items.kinds f (items.warnings s.tokens) s')
      fun _ _ => False
  step : ∀ {n : Nat} {s : State} {Q : State → Prop} {E : Halt → State → Prop},
    s.lookahead.kind ≠ .endOfInput →
    Ends (item options budget) s (fun a s₁ => a = true ∧ Ends (run n) s₁ (fun _ => Q) E) E →
    Ends (run (n + 1)) s (fun _ => Q) E
  resumes : ∀ {n : Nat} {s : State} {Q : State → Prop},
    Ends (run n) s.settle (fun _ s' => s'.recovering = false ∧ Q s') (fun _ _ => False) →
    Ends (run n) s (fun _ s' => Q (close s')) fun _ _ => False
  close_eq : ∀ {s : State}, s.recovering = false → close s = s

/-- The items in a block.  Before the brace that closes it another item is looked for, so that no
error is being recovered from any more. -/
theorem runs_repeatedly (options : Options) (budget : Nat) (rest : List Token.Kind) :
    Runs options budget (.symbol .rightBrace) rest (repeatedly (item options budget)) id where
  ends := Item.goesOn_rightBrace
  goes {_ _ _ _ _ _ _} := repeatedly_goes (matches_item options budget) rfl Item.goesOn_rightBrace
  step {_ _ _ _} _ h := by
    refine ends_bind.mpr (h.imp ?_)
    rintro _ s₁ ⟨rfl, h₁⟩
    exact h₁
  resumes {n s Q} h := by
    -- the first thing an item does is to settle, so settling before it makes no difference
    have hsettle : repeatedly (item options budget) n s.settle =
        repeatedly (item options budget) n s := by
      cases n <;> rfl
    unfold Ends
    rw [← hsettle]
    exact h.imp fun _ _ hQ => hQ.2
  close_eq _ := rfl

/-- The items of a whole program.  It may end while an error is being recovered from. -/
theorem runs_items (options : Options) (budget : Nat) :
    Runs options budget .endOfInput [] (items (item options budget)) State.settle where
  ends := Item.goesOn_endOfInput
  goes {_ _ _ _ _ _ _} := items_goes (matches_item options budget)
  step {n s Q E} hlook h := by
    refine ends_bind.mpr (ends_view.mpr ?_)
    rw [if_neg (by simpa [State.atEnd] using hlook)]
    refine ends_bind.mpr (ends_bind.mpr (h.imp ?_))
    rintro _ s₁ ⟨rfl, h₁⟩
    exact h₁
  resumes {n s Q} h := by
    cases n with
    | zero => exact h.2
    | succ n =>
      have h := ends_view.mp (ends_bind.mp h)
      refine ends_bind.mpr (ends_view.mpr ?_)
      have hend : s.settle.atEnd = s.atEnd := rfl
      rw [hend] at h
      by_cases hatEnd : s.atEnd = true
      · rw [if_pos hatEnd] at h ⊢
        exact h.2
      · rw [if_neg hatEnd] at h ⊢
        have hsettle :
            (do itemOrSkip (item options budget); items (item options budget) n) s.settle =
              (do itemOrSkip (item options budget); items (item options budget) n) s := rfl
        unfold Ends at h
        rw [hsettle] at h
        refine Ends.imp h ?_
        intro _ s' hQ
        obtain ⟨hsettled, hQ⟩ := hQ
        rwa [State.settle_of_settled hsettled]
  close_eq := State.settle_of_settled

end Production

/-! ### Reading a spoiled tree -/

section

variable (stmt gone : List Token.Kind)

/-- At sites like `τ` the tokens `stmt` are one mistake, if `gone` and `ahead` follow them, and the
tokens `gone` are skipped with them. -/
def Production.Traps (τ : Site) (ahead : List Token.Kind) : Prop :=
  ∀ ⦃budget : Nat⦄ ⦃s : State⦄ ⦃σ : Site⦄ ⦃o : Outline⦄ ⦃d : Draft⦄, τ.Alike σ → s.At σ o d →
    s.tokens.length ≤ budget → s.kinds = stmt ++ gone ++ ahead →
    Production.Spoils (Production.item σ.options budget) s σ o d stmt gone

/-- Where the statement means something, it is read in spite of the tokens `stmt` and `gone` between
its tokens `before` and `after`.  What it adds may differ in code, but not in what it declares. -/
def Stmt.Heals (σ : Site) (t : Stmt) (τ : Site) (before after : List Token.Kind) : Prop :=
  ∀ ⦃budget : Nat⦄ ⦃σ' : Site⦄ ⦃f : Fragment⦄ ⦃ts : List Token⦄ ⦃k : Token.Kind⦄
    ⦃rest : List Token.Kind⦄, σ.Alike σ' → ts.length ≤ budget →
    ts.map Token.kind = before ++ (stmt ++ gone) ++ after ++ k :: rest → t.goesOn k = false →
    t.lower? σ' = some f → Production.Traps stmt gone τ (after ++ k :: rest) →
    Production.YieldsAt (Production.statement σ'.options budget) true σ' ts
      (before ++ (stmt ++ gone) ++ after) (Mends σ'.loop f (tokensAt stmt before ts) t.marks)

/-- The same for items. -/
def Item.Heals (σ : Site) (i : Item) (τ : Site) (before after : List Token.Kind) : Prop :=
  ∀ ⦃budget : Nat⦄ ⦃σ' : Site⦄ ⦃f : Fragment⦄ ⦃ts : List Token⦄ ⦃k : Token.Kind⦄
    ⦃rest : List Token.Kind⦄, σ.Alike σ' → ts.length ≤ budget →
    ts.map Token.kind = before ++ (stmt ++ gone) ++ after ++ k :: rest → i.goesOn k = false →
    i.lower? σ' = some f → Production.Traps stmt gone τ (after ++ k :: rest) →
    Production.YieldsAt (Production.item σ'.options budget) true σ' ts
      (before ++ (stmt ++ gone) ++ after) (Mends σ'.loop f (tokensAt stmt before ts) i.marks)

/-- The same for statement lists. -/
def Items.Heals (σ : Site) (items : Items) (τ : Site) (before after : List Token.Kind) : Prop :=
  ∀ ⦃budget n : Nat⦄ ⦃k : Token.Kind⦄ ⦃rest : List Token.Kind⦄ ⦃run : Nat → Production Unit⦄
    ⦃close : State → State⦄ ⦃s : State⦄ ⦃σ' : Site⦄ ⦃o : Outline⦄ ⦃d : Draft⦄ ⦃f : Fragment⦄,
    σ.Alike σ' → Production.Runs σ'.options budget k rest run close → s.At σ' o d →
    s.tokens.length ≤ budget → s.tokens.length ≤ n + 1 →
    s.kinds = before ++ (stmt ++ gone) ++ after ++ k :: rest → items.lower? σ' = some f →
    Production.Traps stmt gone τ (after ++ k :: rest) →
    Production.Ends (run n) s (fun _ s' => ∃ g added,
      Mends σ'.loop f (tokensAt stmt before s.tokens) items.marks g added ∧
        s.Moves σ' o d (before ++ (stmt ++ gone) ++ after) g added (close s')) fun _ _ => False

end

variable {stmt gone : List Token.Kind} {σ τ : Site} {before after : List Token.Kind}

theorem Stmt.Spot.exists_cons {t : Stmt} (h : t.Spot stmt σ τ before after) :
    ∃ k ks, before = k :: ks ∧ k.beginsStmt = true := by
  cases h <;> exact ⟨_, _, rfl, rfl⟩

/-- An item with a place in it begins before the place, so the mistake does not change how it is
read at first. -/
theorem Item.Spot.exists_cons {i : Item} (h : i.Spot stmt σ τ before after) :
    ∃ k ks, before = k :: ks ∧ k ≠ .endOfInput := by
  cases h with
  | method _ => exact ⟨_, _, rfl, by simp⟩
  | statement h =>
    obtain ⟨k, ks, hks, hk⟩ := h.exists_cons
    exact ⟨k, ks, hks, by rintro rfl; cases hk⟩

/-- The tokens of a tree are all there. -/
theorem length_le_of_map_kind {ts : List Token} {ks rest : List Token.Kind}
    (h : ts.map Token.kind = ks ++ rest) : ks.length ≤ ts.length := by
  rw [← List.length_map (f := Token.kind), h, List.length_append]
  omega

namespace Production

/-- A list that is not empty has a first round, since there are two tokens ahead at least. -/
theorem room_of_cons {s : State} {n : Nat} {k : Token.Kind} {ks : List Token.Kind}
    (hn : s.tokens.length ≤ n + 1) (hkinds : s.kinds = k :: ks) (hk : k ≠ .endOfInput)
    (hks : ks ≠ []) : ∃ m, n = m + 1 ∧ s.lookahead.kind ≠ .endOfInput := by
  have hlength := congrArg List.length hkinds
  have hpos := List.length_pos_iff.mpr hks
  rw [State.kinds, List.length_map, List.length_cons] at hlength
  exact ⟨n - 1, by omega, by rwa [State.lookahead_of_kinds hkinds]⟩

theorem room_of_kinds {s : State} {n : Nat} {i : Item} {items : Items} {k : Token.Kind}
    {rest : List Token.Kind} (hn : s.tokens.length ≤ n + 1)
    (hkinds : s.kinds = (Items.cons i items).kinds ++ k :: rest) :
    ∃ m, n = m + 1 ∧ s.lookahead.kind ≠ .endOfInput := by
  obtain ⟨k₁, ks₁, hks₁, hk₁⟩ := i.kinds_eq_cons_of_item
  exact room_of_cons hn (by rw [hkinds, Items.kinds, hks₁]; rfl) (by rintro rfl; cases hk₁)
    (by simp)

/-- An item is followed by what stands behind it in its list, or by what ends the list. -/
theorem next_of_head {i : Item} {k : Token.Kind} (hk : i.goesOn k = false)
    {ks : List Token.Kind} (hks : ∀ k' ∈ ks.head?, i.goesOn k' = false) (rest : List Token.Kind) :
    ∃ k' rest', ks ++ k :: rest = k' :: rest' ∧ i.goesOn k' = false := by
  cases ks with
  | nil => exact ⟨k, rest, rfl, hk⟩
  | cons k' ks => exact ⟨k', _, rfl, hks k' rfl⟩

/-- The statement itself is skipped, and the items behind it are read as usual. -/
theorem heals_here (hstmt : ∃ k ks, stmt = k :: ks ∧ k ≠ .endOfInput) {rest : Items}
    (hclosed : rest.closed = true) : rest.Heals stmt gone σ σ [] rest.kinds := by
  intro budget n k more run close s σ' o d f hσ hruns h hbound hn hkinds hlower htraps
  have hkinds : s.kinds = stmt ++ gone ++ (rest.kinds ++ k :: more) := by simpa using hkinds
  obtain ⟨k₁, ks₁, hks₁, hk₁⟩ := hstmt
  obtain ⟨n, rfl, hlook⟩ := room_of_cons hn (by rw [hkinds, hks₁]; rfl) hk₁ (by simp)
  refine hruns.step hlook ((htraps hσ h hbound hkinds).imp ?_)
  intro a s₁ h₁
  obtain ⟨ha, h₁⟩ := h₁
  refine ⟨ha, ?_⟩
  obtain ⟨operations, t, e, ht, hmoves⟩ := h₁.moves
  -- the items behind the mistake have moved by the operations it left, and mean the same
  have halike : σ'.Alike (σ'.past (.plain operations)) := by
    rw [Site.past_plain]
    exact (Site.Alike.refl σ').ahead 0 _
  obtain ⟨g, hg, hgf⟩ := rest.lower?_alike halike hlower
  have hlength := hmoves.passes.length_tokens
  rw [hks₁, List.cons_append, List.length_cons] at hlength
  have hkinds₁ := hmoves.passes.kinds_eq hkinds
  -- the next item settles the recovery, or else the end of the list does
  refine hruns.resumes
    (Q := fun s' => ∃ g added, Mends _ _ _ _ g added ∧ s.Moves _ _ _ _ g added s')
    ((hruns.goes (n := n) hmoves.here rfl (by omega) (by omega) hkinds₁ hclosed hg).imp ?_)
  intro _ s₂ h₂
  have hmoves₂ := hmoves.trans h₂
  have hleaves := Items.leaves_of_lower? hg
  refine ⟨h₂.here.ready.settled, _, _, ⟨?_, ?_, ?_⟩, hmoves₂⟩
  · exact (Fragment.Alike.plain_append operations g).trans hgf.symm
  · exact (Fragment.Leaves.plain operations).append hleaves
  · refine ⟨[], rest.warnings s₁.settle.tokens, t, e, ht, ?_, ?_, rfl⟩
    · exact rest.isError_of_mem_warnings _
    · exact rest.length_warnings (length_le_of_map_kind hkinds₁)

/-- A spoiled item is read in spite of the mistake, and the items behind it are read as usual. -/
theorem heals_head {i : Item} {rest : Items} (hnext : ∀ k ∈ rest.kinds.head?, i.goesOn k = false)
    (hclosed : rest.closed = true) (hspot : i.Spot stmt σ τ before after)
    (hheals : i.Heals stmt gone σ τ before after) :
    (Items.cons i rest).Heals stmt gone σ τ before (after ++ rest.kinds) := by
  intro budget n k more run close s σ' o d f hσ hruns h hbound hn hkinds hlower htraps
  obtain ⟨g, hg, g₁, hg₁, rfl⟩ := Items.lower?_cons.mp hlower
  have hkinds : s.kinds = before ++ (stmt ++ gone) ++ after ++ (rest.kinds ++ k :: more) := by
    simpa using hkinds
  rw [List.append_assoc] at htraps
  obtain ⟨k₁, ks₁, rfl, hk₁⟩ := hspot.exists_cons
  obtain ⟨n, rfl, hlook⟩ := room_of_cons hn (by rw [hkinds]; rfl) hk₁ (by simp)
  obtain ⟨k', more', hmore, hk'⟩ := next_of_head (hruns.ends i) hnext more
  refine hruns.step hlook ((hheals hσ hbound (hmore ▸ hkinds) hk' hg (hmore ▸ htraps) h rfl).imp ?_)
  intro a s₁ h₁
  obtain ⟨ha, g', added, hmends, h₁⟩ := h₁
  refine ⟨ha, ?_⟩
  -- the item may have other code now, so the items behind it stand at another offset
  obtain ⟨g₁', hg₁', halike⟩ := rest.lower?_alike ((Site.Alike.refl σ').past hmends.alike.symm) hg₁
  have hlength := h₁.passes.length_tokens
  simp only [List.cons_append, List.length_cons] at hlength
  have hkinds₁ := h₁.passes.kinds_eq hkinds
  refine (hruns.goes h₁.here rfl (by omega) (by omega) hkinds₁ hclosed hg₁').imp ?_
  intro _ s₂ h₂
  have hleaves := Items.leaves_of_lower? hg₁'
  have hamong := hmends.among.append_right (rest.isError_of_mem_warnings s₁.tokens)
  rw [rest.length_warnings (length_le_of_map_kind hkinds₁)] at hamong
  refine ⟨g' ++ g₁', _, ⟨hmends.alike.append halike.symm, hmends.leaves.append hleaves, hamong⟩, ?_⟩
  rw [hruns.close_eq h₂.here.ready.settled, ← List.append_assoc]
  exact h₁.trans h₂

/-- An item before the mistake is read as usual, and the mistake is further on in the list. -/
theorem heals_tail (hstmt : stmt ≠ []) {i : Item} {rest : Items}
    (hnext : ∀ k ∈ (before ++ stmt).head?, i.goesOn k = false) (hclosed : i.closed = true)
    {g₀ : Fragment} (hg₀ : i.lower? σ = some g₀)
    (hheals : rest.Heals stmt gone (σ.past g₀) τ before after) :
    (Items.cons i rest).Heals stmt gone σ τ (i.kinds ++ before) after := by
  intro budget n k more run close s σ' o d f hσ hruns h hbound hn hkinds hlower htraps
  obtain ⟨g, hg, g₁, hg₁, rfl⟩ := Items.lower?_cons.mp hlower
  have hkinds : s.kinds = i.kinds ++ (before ++ (stmt ++ gone) ++ after ++ k :: more) := by
    simpa using hkinds
  obtain ⟨k₁, ks₁, hks₁, hk₁⟩ := i.kinds_eq_cons_of_item
  obtain ⟨n, rfl, hlook⟩ := room_of_cons hn (by rw [hkinds, hks₁]; rfl)
    (by rintro rfl; cases hk₁) (by simp)
  -- the item does not go on with the first token of what follows, be it the mistake itself
  obtain ⟨k', more', hmore, hk'⟩ : ∃ k' more', before ++ (stmt ++ gone) ++ after ++ k :: more =
      k' :: more' ∧ i.goesOn k' = false := by
    cases hhead : before ++ stmt with
    | nil => exact absurd (List.append_eq_nil_iff.mp hhead).2 hstmt
    | cons k' ks =>
      refine ⟨k', ks ++ gone ++ after ++ k :: more, ?_, hnext k' (by rw [hhead]; rfl)⟩
      rw [← List.append_assoc before, hhead]
      rfl
  refine hruns.step hlook (((matches_item σ'.options budget).complete h rfl hbound trivial
    (hmore ▸ hkinds) hk' hclosed hg).imp ?_)
  intro a s₁ h₁
  obtain ⟨ha, h₁⟩ := h₁
  refine ⟨ha, ?_⟩
  have hlength := h₁.passes.length_tokens
  rw [hks₁, List.length_cons] at hlength
  have halike := (hσ.past (i.alike_of_lower? hσ hg₀ hg))
  refine (hheals halike hruns h₁.here (by omega) (by omega) (h₁.passes.kinds_eq hkinds) hg₁
    htraps).imp ?_
  intro _ s₂ h₂
  obtain ⟨g₁', added, hmends, h₂⟩ := h₂
  have hamong := hmends.among.append_left (i.isError_of_mem_warnings s.tokens)
  rw [i.length_warnings (length_le_of_map_kind hkinds), h₁.passes.tokens,
    ← tokensAt_append] at hamong
  refine ⟨g ++ g₁', _, ⟨.append (.refl g) hmends.alike, ?_, hamong⟩, ?_⟩
  · exact (Item.leaves_of_lower? hg).append hmends.leaves
  · simpa using h₁.trans h₂

/-! ### Around a spoiled part -/

/-- A block with a spoiled list of items, which is read up to its closing brace. -/
theorem block_heals {items : Items} (hheals : items.Heals stmt gone σ τ before after)
    {budget : Nat} {σ' : Site} {f : Fragment} {ts : List Token} {rest : List Token.Kind}
    (hσ : σ.Alike σ') (hbound : ts.length ≤ budget + 1)
    (hkinds : ts.map Token.kind =
      .symbol .leftBrace :: (before ++ (stmt ++ gone) ++ after ++ .symbol .rightBrace :: rest))
    (hlower : items.lower? σ' = some f)
    (htraps : Traps stmt gone τ (after ++ .symbol .rightBrace :: rest)) :
    YieldsAt (block budget (item σ'.options budget)) true σ' ts
      (.symbol .leftBrace :: (before ++ (stmt ++ gone) ++ after) ++ [.symbol .rightBrace])
      (Mends σ'.loop f (tokensAt stmt (.symbol .leftBrace :: before) ts) items.marks) := by
  intro s o d h htokens
  subst htokens
  refine ends_of_accept (by simp) rfl h hkinds fun {s₁} h₁ hlength => ?_
  have hitems : Yields (repeatedly (item σ'.options budget) budget) () s₁ σ' (o.put σ'.method d [])
      d (before ++ (stmt ++ gone) ++ after)
      (Mends σ'.loop f (tokensAt stmt before s₁.tokens) items.marks) :=
    (hheals hσ (runs_repeatedly _ budget rest) h₁.here (by omega) (by omega)
      (h₁.passes.kinds_eq hkinds) hlower htraps).imp fun _ _ h₂ => ⟨rfl, h₂⟩
  rw [h₁.passes.tokens] at hitems
  rw [tokensAt_cons]
  exact block_goes h₁ hkinds hitems

/-- A spoiled statement is read if its first token says which form it has.  The first token comes
before the place of the mistake. -/
theorem Stmt.heals_of_form {t : Stmt}
    (h : ∀ {budget : Nat} {s : State} {σ' : Site} {o : Outline} {d : Draft} {f : Fragment}
      {k : Token.Kind} {rest : List Token.Kind}, σ.Alike σ' → s.At σ' o d →
      s.tokens.length ≤ budget + 1 →
      s.kinds = before ++ (stmt ++ gone) ++ after ++ k :: rest → t.goesOn k = false →
      t.lower? σ' = some f → Traps stmt gone τ (after ++ k :: rest) →
      Yields (statement σ'.options (budget + 1)) true s σ' o d (before ++ (stmt ++ gone) ++ after)
        (Mends σ'.loop f (tokensAt stmt before s.tokens) t.marks)) :
    t.Heals stmt gone σ τ before after := by
  intro budget σ' f ts k rest hσ hbound hkinds hk hlower htraps s o d hat htokens
  subst htokens
  obtain ⟨budget, rfl⟩ := State.exists_budget hbound
  exact h hσ hat hbound hkinds hk hlower htraps

theorem heals_block {items : Items} (hheals : items.Heals stmt gone σ τ before after) :
    (Stmt.block items).Heals stmt gone σ τ (.symbol .leftBrace :: before)
      (after ++ [.symbol .rightBrace]) := by
  refine Stmt.heals_of_form ?_
  intro budget s σ' o d f k rest hσ h hbound hkinds hk hlower htraps
  have hkinds : s.kinds = .symbol .leftBrace ::
      (before ++ (stmt ++ gone) ++ after ++ .symbol .rightBrace :: k :: rest) := by
    simpa using hkinds
  have hyields := block_heals hheals hσ hbound hkinds hlower (by simpa using htraps) h rfl
  rw [← List.append_assoc]
  exact statement_ends (firstOf_take hyields)

/-- The budget lasts for what is behind a token. -/
theorem length_drop_le {ts : List Token} {budget : Nat} (h : ts.length ≤ budget + 1) (n : Nat) :
    (ts.drop (n + 1)).length ≤ budget := by
  rw [List.length_drop]
  omega

section

variable {c : Expr .relation} {budget : Nat} {s : State} {σ : Site} {o : Outline} {d : Draft}
  {ks : List Token.Kind} {Q : State → Prop}

/-- A conditional is tried after blocks, which its keyword refuses. -/
theorem conditional_ends (h : s.At σ o d) (hkinds : s.kinds = .keyword .if :: ks)
    (hrest : ∀ {s₁ : State}, s.Goes o [.keyword .if] [] s₁ σ d [] →
      s.tokens.length = s₁.tokens.length + 1 → Ends (conditionalRest
        (expression σ.options (budget + 1)) (statement σ.options budget)) s₁
        (fun a s' => a = true ∧ Q s') fun _ _ => False) :
    Ends (statement σ.options (budget + 1)) s (fun a s' => a = true ∧ Q s') fun _ _ => False := by
  refine statement_ends (firstOf_pass (block_refuses h.ready.settled
    (State.lookahead_of_kinds hkinds) (by simp)) (firstOf_take ?_))
  exact ends_of_accept (by simp) (congrFun (conditional_eq _ _) _) h hkinds hrest

end

theorem heals_branch {c : Expr .relation} {body : Stmt}
    (hheals : body.Heals stmt gone σ τ before after) :
    (Stmt.branch c body).Heals stmt gone σ τ (.keyword .if :: c.conditionKinds ++ before)
      after := by
  refine Stmt.heals_of_form ?_
  intro budget s σ' o d f k rest hσ h hbound hkinds hk hlower htraps
  obtain ⟨code, hcode, g, hg, rfl⟩ := Stmt.lower?_branch.mp hlower
  rw [Site.past_skip] at hg
  obtain ⟨helse, hk⟩ : k ≠ .keyword .else ∧ body.goesOn k = false := by
    simpa [Stmt.goesOn] using hk
  have hkinds : s.kinds = .keyword .if :: (c.conditionKinds ++
      (before ++ (stmt ++ gone) ++ after ++ k :: rest)) := by
    simpa using hkinds
  have he := (reads_expression σ'.options (budget + 1)).mono (Nat.le_succ _)
  refine conditional_ends h hkinds fun {s₁} h₁ hlength => ?_
  have hyields := hheals (hσ.ahead 0 (code.length + 1)) (length_drop_le hbound _)
    (kinds_drop (.keyword .if :: c.conditionKinds) hkinds) hk hg htraps
  refine (ifThen_goes he h h₁ rfl (by omega) hcode hyields ?_ hkinds helse).imp ?_
  · exact fun hmends => hmends.leaves.before (h.before.ahead _)
  · intro a s₂ h₂
    obtain ⟨ha, g', added, hmends, h₂⟩ := h₂
    rw [tokensAt_append]
    refine ⟨ha, σ'.skip code g'.code.length ++ g', added, ⟨?_, ?_, hmends.among⟩,
      by simpa using h₂⟩
    · exact .append (.jump ..) hmends.alike
    · exact .append (.skip σ' _ _) hmends.leaves

theorem heals_body {c : Expr .relation} {body other : Stmt}
    (hnext : body.goesOn (.keyword .else) = false) (hclosed : other.closed = true)
    (hheals : body.Heals stmt gone σ τ before after) :
    (Stmt.choice c body other).Heals stmt gone σ τ (.keyword .if :: c.conditionKinds ++ before)
      (after ++ .keyword .else :: other.kinds) := by
  refine Stmt.heals_of_form ?_
  intro budget s σ' o d f k rest hσ h hbound hkinds hk hlower htraps
  obtain ⟨code, hcode, g, hg, g₁, hg₁, rfl⟩ := Stmt.lower?_choice.mp hlower
  rw [Site.past_skip] at hg
  rw [Site.past_append _ (_ ++ g), Site.past_leap] at hg₁
  -- the body may have come out longer or shorter, so the other part is read at another offset
  have hother {g' : Fragment} (halike : g'.Alike g) (n : Nat) :
      ∃ g₁', other.lower? ((σ'.past (σ'.skip code n ++ g')).ahead 1) = some g₁' ∧ g₁.Alike g₁' :=
    other.lower?_alike (((Site.Alike.refl σ').past (.append (.jump ..) halike.symm)).ahead 1 1) hg₁
  have hkinds : s.kinds = .keyword .if :: (c.conditionKinds ++
      (before ++ (stmt ++ gone) ++ after ++ .keyword .else :: (other.kinds ++ k :: rest))) := by
    simpa using hkinds
  have he := (reads_expression σ'.options (budget + 1)).mono (Nat.le_succ _)
  have hkinds' := kinds_drop (.keyword .if :: c.conditionKinds) hkinds
  rw [List.length_cons] at hkinds'
  refine conditional_ends h hkinds fun {s₁} h₁ hlength => ?_
  have hyields := hheals (hσ.ahead 0 (code.length + 1)) (length_drop_le hbound _) hkinds' hnext hg
    (by simpa using htraps)
  -- how the tokens of the body are made up does not matter any more
  obtain ⟨bodyKinds, hbody⟩ : ∃ ks, before ++ (stmt ++ gone) ++ after = ks := ⟨_, rfl⟩
  rw [hbody] at hkinds hkinds' hyields
  have hbound' : ((s.tokens.drop (c.conditionKinds.length + 1)).drop
      (bodyKinds.length + 1)).length ≤ budget :=
    length_drop_le (Nat.le_succ_of_le (length_drop_le hbound _)) _
  have hkinds'' := kinds_drop _ (hkinds'.trans (List.append_cons ..))
  rw [List.length_append, List.length_singleton] at hkinds''
  refine (ifElse_goes (S := fun f' g' added' =>
      other.lower? ((σ'.past (σ'.skip code (f'.code.length + 1) ++ f')).ahead 1) = some g' ∧
      other.warnings ((s.tokens.drop (c.conditionKinds.length + 1)).drop (bodyKinds.length + 1)) =
        added')
    he h h₁ rfl (by omega) hcode hyields ?_ hkinds ?_ ?_).imp ?_
  · -- the branches of the body wait for labels of its own only
    exact fun hmends => hmends.leaves.before (h.before.ahead _)
  · intro f' added hmends
    obtain ⟨g₁', hg₁', -⟩ := hother hmends.alike (f'.code.length + 1)
    have hother : Item.IsStatement (.statement other) := ⟨other, rfl⟩
    have hyields' := (matches_declaration_and_statement σ'.options budget).2.yieldsAt hbound' hother
      hkinds'' hk hclosed (σ := (σ'.past (σ'.skip code (f'.code.length + 1) ++ f')).ahead 1) rfl
      hg₁'
    refine hyields'.mono ?_
    rintro _ _ ⟨rfl, hadded⟩
    exact ⟨hg₁', hadded⟩
  · rintro f' g' added' ⟨hg', -⟩
    exact (Stmt.leaves_of_lower? hg').before ((h.before.past _).ahead 1)
  · rintro a s₂ ⟨ha, g', added, g₁', added', hmends, ⟨hg₁', rfl⟩, h₂⟩
    obtain ⟨g₂, hg₂, halike⟩ := hother hmends.alike (g'.code.length + 1)
    obtain rfl := Option.some.inj (hg₁'.symm.trans hg₂)
    have hleaves := Stmt.leaves_of_lower? hg₁'
    have hamong := hmends.among.append_right (other.isError_of_mem_warnings
      ((s.tokens.drop (c.conditionKinds.length + 1)).drop (bodyKinds.length + 1)))
    rw [other.length_warnings (length_le_of_map_kind hkinds'')] at hamong
    rw [tokensAt_append]
    refine ⟨ha, _, _, ⟨?_, ?_, hamong⟩, by simpa [← hbody] using h₂⟩
    · exact .append (.append (.append (.jump ..) hmends.alike) (.jump ..)) halike.symm
    · exact .append (.append (.append (.skip σ' _ _) hmends.leaves) (.leap _ _)) hleaves

theorem heals_other {c : Expr .relation} {body other : Stmt} {g₀ : Fragment}
    (hnext : body.goesOn (.keyword .else) = false) (hclosed : body.closed = true)
    (hg₀ : body.lower? σ = some g₀)
    (hheals : other.Heals stmt gone (σ.past g₀) τ before after) :
    (Stmt.choice c body other).Heals stmt gone σ τ
      (.keyword .if :: c.conditionKinds ++ body.kinds ++ .keyword .else :: before) after := by
  refine Stmt.heals_of_form ?_
  intro budget s σ' o d f k rest hσ h hbound hkinds hk hlower htraps
  obtain ⟨code, hcode, g, hg, g₁, hg₁, rfl⟩ := Stmt.lower?_choice.mp hlower
  rw [Site.past_skip] at hg
  rw [← body.length_code hg, Site.past_append _ (_ ++ g), Site.past_leap] at hg₁
  have hkinds : s.kinds = .keyword .if :: (c.conditionKinds ++ (body.kinds ++ .keyword .else ::
      (before ++ (stmt ++ gone) ++ after ++ k :: rest))) := by
    simpa using hkinds
  have he := (reads_expression σ'.options (budget + 1)).mono (Nat.le_succ _)
  have hkinds' := kinds_drop (.keyword .if :: c.conditionKinds) hkinds
  rw [List.length_cons] at hkinds'
  refine conditional_ends h hkinds fun {s₁} h₁ hlength => ?_
  have hbody : Item.IsStatement (.statement body) := ⟨body, rfl⟩
  have hyields := (matches_declaration_and_statement σ'.options budget).2.yieldsAt
    (length_drop_le hbound _) hbody hkinds' hnext hclosed (σ := σ'.ahead (code.length + 1)) rfl hg
  have hbound' : ((s.tokens.drop (c.conditionKinds.length + 1)).drop
      (body.kinds.length + 1)).length ≤ budget :=
    length_drop_le (Nat.le_succ_of_le (length_drop_le hbound _)) _
  -- the body before the mistake is read as usual, so the sites behind it correspond
  have halike : (σ.past g₀).Alike ((σ'.past (σ'.skip code (g.code.length + 1) ++ g)).ahead 1) := by
    rw [Site.past_append, Site.past_skip]
    exact ((hσ.ahead 0 _).past (body.alike_of_lower? (hσ.ahead 0 _) hg₀ hg)).ahead 0 1
  have hkinds'' := kinds_drop _ (hkinds'.trans (List.append_cons ..))
  rw [List.length_append, List.length_singleton] at hkinds''
  have hyields' := hheals halike hbound' hkinds'' hk hg₁ htraps
  refine (ifElse_goes (S := fun _ => Mends σ'.loop g₁ (tokensAt stmt before ((s.tokens.drop
      (c.conditionKinds.length + 1)).drop (body.kinds.length + 1))) other.marks) he h h₁ rfl
    (by omega) hcode hyields ?_ hkinds ?_ ?_).imp ?_
  · rintro _ _ ⟨rfl, -⟩
    exact body.before_of_lower? (h.before.ahead _) hg
  · rintro _ _ ⟨rfl, -⟩
    exact hyields'
  · intro _ g' added' hmends
    exact hmends.leaves.before h.before
  · rintro a s₂ ⟨ha, _, _, g', added', ⟨rfl, rfl⟩, hmends, h₂⟩
    have hleaves := Stmt.leaves_of_lower? hg
    have hamong := hmends.among.append_left
      (body.isError_of_mem_warnings (s.tokens.drop (c.conditionKinds.length + 1)))
    rw [body.length_warnings (length_le_of_map_kind hkinds')] at hamong
    rw [body.length_code hg] at h₂
    rw [List.append_assoc, List.append_cons body.kinds, tokensAt_append, tokensAt_append,
      List.length_append]
    refine ⟨ha, _, _, ⟨?_, ?_, hamong⟩, by simpa [Item.kinds, Item.warnings] using h₂⟩
    · exact .append (.append (.append (.jump ..) (.refl g)) (.jump ..)) hmends.alike
    · exact .append (.append (.append (.skip σ' _ _) hleaves) (.leap _ _)) hmends.leaves

theorem heals_loop {c : Expr .relation} {body : Stmt} {exits : Exits}
    (hheals : body.Heals stmt gone (σ.within exits) τ before after) :
    (Stmt.loop c body).Heals stmt gone σ τ (.keyword .while :: c.conditionKinds ++ before)
      after := by
  refine Stmt.heals_of_form ?_
  intro budget s σ' o d f k rest hσ h hbound hkinds hk hlower htraps
  obtain ⟨code, hcode, g, hg, rfl⟩ := Stmt.lower?_loop.mp hlower
  -- while the body is read, the end of the loop is a label and not yet an offset
  rw [body.lower?_within_exits d.labels.length, Option.map_eq_some_iff] at hg
  obtain ⟨f, hf, rfl⟩ := hg
  have hkinds : s.kinds = .keyword .while :: (c.conditionKinds ++
      (before ++ (stmt ++ gone) ++ after ++ k :: rest)) := by
    simpa using hkinds
  have he := (reads_expression σ'.options (budget + 1)).mono (Nat.le_succ _)
  have hsettled := h.ready.settled
  have hlook := State.lookahead_of_kinds hkinds
  refine statement_ends (firstOf_pass (block_refuses hsettled hlook (by simp))
    (firstOf_pass (conditional_refuses hsettled hlook (by simp)) (firstOf_take ?_)))
  refine ends_of_accept (by simp) (congrFun (loop_eq _ _) _) h hkinds fun {s₁} h₁ hlength => ?_
  have hyields := hheals ((hσ.within exits (σ'.pendingExits d.labels.length)).ahead 0
    (code.length + 1)) (length_drop_le hbound _)
    (kinds_drop (.keyword .while :: c.conditionKinds) hkinds) hk hf htraps
  refine (loop_goes he h h₁ rfl (by omega) hcode hkinds hyields).imp ?_
  intro a s₂ h₂
  obtain ⟨ha, g', added, hmends, h₂⟩ := h₂
  rw [tokensAt_append]
  refine ⟨ha, σ'.round code g'.code.length ++ g'.redirect _ _ ++ σ'.again, added,
    ⟨?_, ?_, hmends.among⟩, by simpa using h₂⟩
  · exact .append (.append (.jump ..) (hmends.alike.redirect ..)) (.jump ..)
  · exact .append (.append (.round σ' _ _) (hmends.leaves.redirect _)) (.again σ')

theorem heals_bug {body : Stmt} (hheals : body.Heals stmt gone σ τ before after) :
    (Stmt.bug body).Heals stmt gone σ τ (.keyword .bug :: before)
      (after ++ [.symbol .semicolon]) := by
  refine Stmt.heals_of_form ?_
  intro budget s σ' o d f k rest hσ h hbound hkinds hk hlower htraps
  have hkinds : s.kinds = .keyword .bug ::
      (before ++ (stmt ++ gone) ++ after ++ .symbol .semicolon :: k :: rest) := by
    simpa using hkinds
  have hsettled := h.ready.settled
  have hlook := State.lookahead_of_kinds hkinds
  refine statement_ends (firstOf_pass (block_refuses hsettled hlook (by simp))
    (firstOf_pass (conditional_refuses hsettled hlook (by simp))
    (firstOf_pass (loop_refuses hsettled hlook (by simp))
    (firstOf_pass (expressionStatement_refuses hsettled hlook rfl)
    (firstOf_pass (semicolon_refuses hsettled hlook (by simp))
    (firstOf_pass (printStatement_refuses hsettled hlook (by simp)) (firstOf_take ?_)))))))
  refine ends_of_accept (by simp) rfl h hkinds fun {s₁} h₁ hlength => ?_
  have hyields := hheals hσ (length_drop_le hbound _) (kinds_drop [.keyword .bug] hkinds)
    (body.goesOn_of_ends (by simp) Expr.goesOn_semicolon) hlower (by simpa using htraps)
  refine (bug_goes h₁ hkinds hyields _).imp ?_
  intro a s₂ h₂
  obtain ⟨ha, g', added, hmends, h₂⟩ := h₂
  -- the warning about the marked statement comes last
  have hwarning : ∀ d ∈ [Diagnostic.warning s.lookahead.position .possibleBug],
      d.isError = false := by
    simp [Diagnostic.isError]
  rw [tokensAt_cons]
  exact ⟨ha, g', _, ⟨hmends.alike, hmends.leaves, hmends.among.append_right hwarning⟩,
    by simpa using h₂⟩

theorem heals_method {type : TypeName} {x : String} {ds : List Declarator} {comma : Bool}
    {body : Items} (hheals : body.Heals stmt gone (σ.body type.ty x ds) τ before after) :
    (Item.method type x ds comma body).Heals stmt gone σ τ
      (Declarator.headerKinds type x ds comma ++ before) (after ++ [.symbol .rightBrace]) := by
  intro budget σ' f ts k rest hσ hbound hkinds hk hlower htraps s o d h htokens
  subst htokens
  obtain ⟨budget, rfl⟩ := State.exists_budget hbound
  obtain ⟨g, hg, ⟨hfresh, hwell⟩, rfl⟩ := Item.lower?_method.mp hlower
  have hkinds : s.kinds = .keyword type.word :: .identifier x :: .symbol .leftParen ::
      (Declarator.parameterKinds ds comma ++ .symbol .leftBrace ::
        (before ++ (stmt ++ gone) ++ after ++ .symbol .rightBrace :: k :: rest)) := by
    simpa [State.kinds, Declarator.headerKinds_eq] using hkinds
  have halike : (σ.body type.ty x ds).Alike (σ'.body type.ty x ds) := hσ.body type.ty x ds ▸ .refl _
  have hyields := block_heals hheals halike
    (Nat.le_succ_of_le (length_drop_le hbound _)) (kinds_drop (.keyword type.word ::
      .identifier x :: .symbol .leftParen :: Declarator.parameterKinds ds comma) hkinds) hg
    (by simpa using htraps)
  refine item_ends h.ready.settled (firstOf_take ((methodForm_goes h (by omega) hkinds hfresh hwell
    hyields).imp ?_))
  intro a s₁ h₁
  obtain ⟨ha, g', added, hmends, h₁⟩ := h₁
  -- the tokens of the statement are counted from the type of the method on
  have hdrop : (Token.Kind.identifier x :: .symbol .leftParen ::
      Declarator.parameterKinds ds comma).length + 1 + 1 =
      (Declarator.headerKinds type x ds comma).length := by
    simp [Declarator.headerKinds_eq]
  rw [tokensAt_cons, List.drop_drop, hdrop, ← tokensAt_append] at hmends
  refine ⟨ha, g'.declaration x type.ty ds, added,
    ⟨hmends.alike.declaration .., ?_, hmends.among⟩, ?_⟩
  · exact fun _ _ _ => rfl
  · simpa [Declarator.headerKinds_eq] using h₁

theorem heals_statement {t : Stmt} (hspot : t.Spot stmt σ τ before after)
    (hheals : t.Heals stmt gone σ τ before after) :
    (Item.statement t).Heals stmt gone σ τ before after := by
  intro budget σ' f ts k rest hσ hbound hkinds hk hlower htraps s o d h htokens
  have hlook : s.lookahead.kind.beginsStmt = true := by
    obtain ⟨k₁, ks₁, rfl, hk₁⟩ := hspot.exists_cons
    have hkinds : s.kinds = k₁ :: (ks₁ ++ (stmt ++ gone) ++ after ++ k :: rest) := by
      rw [State.kinds, htokens, hkinds]
      rfl
    rwa [State.lookahead_of_kinds hkinds]
  exact item_ends h.ready.settled (firstOf_pass (declaration_refuses h.ready.settled hlook)
    (firstOf_take (hheals hσ hbound hkinds hk hlower htraps h htokens)))

end Production

mutual

theorem Stmt.Spot.heals (hstmt : ∃ k ks, stmt = k :: ks ∧ k ≠ .endOfInput) :
    ∀ {t : Stmt} {σ τ : Site} {before after : List Token.Kind}, t.Spot stmt σ τ before after →
      t.Heals stmt gone σ τ before after
  | _, _, _, _, _, .block h => Production.heals_block (h.heals hstmt)
  | _, _, _, _, _, .branch h => Production.heals_branch (h.heals hstmt)
  | _, _, _, _, _, .body hnext hclosed h => Production.heals_body hnext hclosed (h.heals hstmt)
  | _, _, _, _, _, .other hnext hclosed hg h =>
    Production.heals_other hnext hclosed hg (h.heals hstmt)
  | _, _, _, _, _, .loop _ h => Production.heals_loop (h.heals hstmt)
  | _, _, _, _, _, .bug h => Production.heals_bug (h.heals hstmt)

theorem Item.Spot.heals (hstmt : ∃ k ks, stmt = k :: ks ∧ k ≠ .endOfInput) :
    ∀ {i : Item} {σ τ : Site} {before after : List Token.Kind}, i.Spot stmt σ τ before after →
      i.Heals stmt gone σ τ before after
  | _, _, _, _, _, .method h => Production.heals_method (h.heals hstmt)
  | _, _, _, _, _, .statement h => Production.heals_statement h (h.heals hstmt)

/-- **The rest of the tree is read as it is meant.**  A faulty statement costs one error, wherever
it stands.  By recursion on the place of the statement, with one lemma for each way in. -/
theorem Items.Spot.heals (hstmt : ∃ k ks, stmt = k :: ks ∧ k ≠ .endOfInput) :
    ∀ {items : Items} {σ τ : Site} {before after : List Token.Kind},
      items.Spot stmt σ τ before after → items.Heals stmt gone σ τ before after
  | _, _, _, _, _, .here hclosed => Production.heals_here hstmt hclosed
  | _, _, _, _, _, .head hnext hclosed h => Production.heals_head hnext hclosed h (h.heals hstmt)
  | _, _, _, _, _, .tail hnext hclosed hg h => by
    refine Production.heals_tail ?_ hnext hclosed hg (h.heals hstmt)
    obtain ⟨k, ks, rfl, -⟩ := hstmt
    exact List.cons_ne_nil k ks

end

/-! ### Whole sources -/

/-- The one error, and the warnings around it, which are counted separately. -/
theorem Among.exists_filter {tokens : List Token} {warnings : Nat} {added : List Diagnostic}
    (h : Among tokens warnings added) :
    (∃ t ∈ tokens, ∃ e, added.filter Diagnostic.isError = [.parse t.position e]) ∧
      added.countP (!·.isError) = warnings := by
  obtain ⟨front, back, t, e, ht, hwarnings, rfl, rfl⟩ := h
  have hnone {ds : List Diagnostic} (h : ∀ d ∈ ds, d ∈ front ++ back) :
      ds.filter Diagnostic.isError = [] ∧ ds.countP (!·.isError) = ds.length := by
    refine ⟨List.filter_eq_nil_iff.mpr fun d hd => ?_, List.countP_eq_length.mpr fun d hd => ?_⟩
    · simp [hwarnings d (h d hd)]
    · simp [hwarnings d (h d hd)]
  obtain ⟨hfront, hfront'⟩ := hnone fun d hd => List.mem_append_left back hd
  obtain ⟨hback, hback'⟩ := hnone fun d hd => List.mem_append_right front hd
  refine ⟨⟨t, ht, e, ?_⟩, ?_⟩
  · rw [List.filter_append, List.filter_cons_of_pos rfl, hfront, hback]
    rfl
  · rw [List.countP_append, List.countP_cons_of_neg (by simp [Diagnostic.isError]), hfront', hback',
      List.length_append]

/-- The pass ended as one that led to a compilation, but for one error at one of the tokens. -/
structure Parsed.Spoiled (run : Parsed) (c : Compilation) (tokens : List Token) : Prop where
  outcome : run.outcome = .ok false
  error : ∃ t ∈ tokens, ∃ e, run.state.diagnostics.errors = #[.parse t.position e]
  warnings : run.state.diagnostics.warningCount = c.diagnostics.warningCount
  /-- A program can still be had, and its methods declare the same. -/
  program : ∀ log, ∃ methods logged,
    Assembler.finish ⟨run.state.assembler, log⟩ = .ok ⟨c.program.name, methods⟩ logged ∧
      methods.toList.map Method.heading = c.program.methods.toList.map Method.heading

/-- A tree has as many warnings as there are marks in it, if all its tokens are there. -/
theorem Writes.length_warnings {source : String} {items : Items} {tokens : List Token}
    (h : Writes source items tokens) : (items.warnings tokens).length = items.marks := by
  refine items.length_warnings ?_
  rw [← List.length_map (f := Token.kind), h.2, List.length_append]
  omega

/-- A source of a tree that stands for a program is compiled to it, with a warning for each mark. -/
theorem Writes.exists_compile {options : Options} {source : String} {items : Items}
    {tokens : List Token} (h : Writes source items tokens) (hclosed : items.closed = true)
    {program : Program} (hprogram : items.program? options = some program) :
    ∃ c, compile options source = .ok c ∧ c.program = program ∧
      c.diagnostics.warningCount = items.marks := by
  refine ⟨⟨program, ⟨(items.warnings tokens).toArray⟩⟩, ?_, rfl, ?_⟩
  · exact compile_eq_ok_iff.mpr ⟨items, tokens, h, hclosed, hprogram, List.toList_toArray⟩
  · rw [← h.length_warnings, Diagnostics.warningCount, List.countP_toArray]
    refine List.countP_eq_length.mpr fun d hd => ?_
    simp [items.isError_of_mem_warnings tokens d hd]

/-- The programs of fragments alike declare the same, method by method. -/
theorem Fragment.Alike.headings_eq {f g : Fragment} (h : g.Alike f) {methods : List Method}
    (hdrafts : methods.map Method.draft =
      (g.method "main" .void [] :: g.methods).map Method.draft) :
    methods.map Method.heading = (f.method "main" .void [] :: f.methods).map Method.heading := by
  have hheading : Method.heading =
      (fun d : Draft => ⟨d.name, d.returnType, d.parameters, d.locals⟩) ∘ Method.draft := rfl
  rw [List.map_cons, ← h.headings, ← h.heading_method, ← List.map_cons, hheading, ← List.map_map,
    hdrafts, List.map_map]

section

variable {options : Options} {items : Items} {source : String} {tokens : List Token}
  (hstmt : ∃ k ks, stmt = k :: ks ∧ k ≠ .endOfInput)
  (hspot : items.Spot stmt (.entry options) τ before after) (hscans : Scans source tokens)
  (hkinds : tokens.map Token.kind = before ++ (stmt ++ gone) ++ after ++ [.endOfInput])
  (htraps : Production.Traps stmt gone τ (after ++ [.endOfInput]))
include hstmt hspot hscans hkinds htraps

/-- All of a source with a faulty statement is read, up to the end of the input. -/
theorem program_of_spot {f : Fragment} (hlower : items.lower? (.entry options) = some f) :
    ∃ s, Production.program options (lexemes source).length (.start (lexemes source)) =
        .ok (decide (s.diagnostics.errorCount = 0 ∧ s.atEnd)) s ∧ ∃ g added,
      Mends none f (tokensAt stmt before tokens) items.marks g added ∧
        s.settle.Read options g added := by
  refine program_ends hscans fun {s₀} hat htokens hreports => ?_
  subst htokens
  refine (hspot.heals hstmt (.refl _) (Production.runs_items options s₀.tokens.length) hat
    (Nat.le_refl _) (Nat.le_succ _) hkinds hlower htraps).imp ?_
  intro _ s hmoves
  obtain ⟨g, added, hmends, hmoves⟩ := hmoves
  refine ⟨g, added, hmends, ?_, _, _, hmoves⟩
  rw [hmoves.passes.reports, hreports, List.nil_append]

/-- A source with a faulty statement goes wrong once.  All that is said about the pass follows from
what it has read. -/
theorem Parsed.Spoiled.of_spot {c : Compilation}
    (hprogram : items.program? options = some c.program)
    (hwarnings : c.diagnostics.warningCount = items.marks) :
    (parse options source).Spoiled c (tokensAt stmt before tokens) := by
  obtain ⟨f, hlower, hc⟩ := Items.program?_eq_some.mp hprogram
  obtain ⟨s, hrun, g, added, hmends, hread⟩ :=
    program_of_spot hstmt hspot hscans hkinds htraps hlower
  obtain ⟨⟨t, ht, e, herror⟩, hcount⟩ := hmends.among.exists_filter
  have hreports : s.diagnostics.entries.toList = added := hread.1
  rw [← hreports] at herror hcount
  rw [parse_of_ok hrun]
  refine ⟨?_, ⟨t, ht, e, ?_⟩, ?_, fun log => ?_⟩
  · -- one error is enough for the pass not to match
    have herrors : s.diagnostics.errorCount = 1 := by
      rw [Diagnostics.errorCount, ← Array.countP_toList, List.countP_eq_length_filter, herror]
      rfl
    simp [herrors]
  · rw [Diagnostics.errors, ← Array.toList_inj, Array.toList_filter, herror]
  · rw [Diagnostics.warningCount, ← Array.countP_toList, hcount, hwarnings]
  · obtain ⟨methods, logged, hfinish, hdrafts⟩ := hread.exists_finish log
    refine ⟨methods, logged, ?_, ?_⟩
    · rw [← hc]
      exact hfinish
    · rw [← hc]
      exact hmends.alike.headings_eq hdrafts

end

theorem Simple.kinds_eq_cons (q : Simple) : ∃ k ks, q.kinds = k :: ks ∧ k ≠ .endOfInput := by
  obtain ⟨items, hitems⟩ := q.exists_before_eq .nil
  obtain ⟨k, ks, hks, hk⟩ := q.item.kinds_eq_cons_of_item
  refine ⟨k, ks ++ items.kinds, by rw [kinds, hitems, Items.kinds, hks]; rfl, ?_⟩
  rintro rfl
  cases hk

variable {q : Simple}

/-- A simple statement that means nothing at a site is one mistake there, and at every site
alike. -/
theorem Production.traps_of_simple (hlower : q.item.lower? τ = none) (ahead : List Token.Kind) :
    Traps q.kinds [] τ ahead := by
  intro budget s σ o d hτ h hbound hkinds
  rw [List.append_nil] at hkinds
  refine item_spoils h rfl hbound hkinds (eq_none_of_imp hlower fun g hg => ?_)
  obtain ⟨g', hg', -⟩ := q.item.lower?_alike hτ.symm hg
  exact ⟨g', hg'⟩

/-- So does a tree with such a statement in it, at the place where it was inserted. -/
theorem Parsed.Spoiled.of_inserts {options : Options} {items items' : Items} {source : String}
    {tokens : List Token} {c : Compilation} (hinserts : items.Inserts q before items')
    (h : Writes source items' tokens) (hclosed : items'.closed = true)
    (hprogram : items.program? options = some c.program) (hfaulty : items'.program? options = none)
    (hwarnings : c.diagnostics.warningCount = items.marks) :
    (parse options source).Spoiled c (q.tokens before tokens) := by
  obtain ⟨f, hlower, -⟩ := Items.program?_eq_some.mp hprogram
  have hnone : items'.lower? (.entry options) = none := eq_none_of_imp hfaulty fun g hg =>
    ⟨_, Items.program?_eq_some.mpr ⟨g, hg, rfl⟩⟩
  obtain ⟨τ, after, hspot, hkinds, hq⟩ := hinserts.spot (.refl _) hclosed hlower hnone
  have hkinds : tokens.map Token.kind = before ++ (q.kinds ++ []) ++ after ++ [.endOfInput] := by
    rw [h.2, hkinds, List.append_nil]
  exact .of_spot q.kinds_eq_cons hspot h.1 hkinds (Production.traps_of_simple hq _) hprogram
    hwarnings

/-- Where the statement stands among the tokens: those around it are the ones of the tree without
it. -/
theorem Items.Inserts.exists_split {items items' : Items} {tokens tokens' : List Token}
    (hinserts : items.Inserts q before items')
    (h : tokens.map Token.kind = items.kinds ++ [.endOfInput])
    (h' : tokens'.map Token.kind = items'.kinds ++ [.endOfInput]) :
    ∃ front inserted back, tokens' = front ++ inserted ++ back ∧
      front.map Token.kind = before ∧ inserted.map Token.kind = q.kinds ∧
      tokens.map Token.kind = (front ++ back).map Token.kind := by
  obtain ⟨after, hkinds, hkinds'⟩ := hinserts.kinds_eq
  rw [hkinds', List.append_assoc] at h'
  obtain ⟨front', back, rfl, hfront', hback⟩ := List.map_eq_append_iff.mp h'
  obtain ⟨front, inserted, rfl, hfront, hinserted⟩ := List.map_eq_append_iff.mp hfront'
  refine ⟨front, inserted, back, rfl, hfront, hinserted, ?_⟩
  rw [h, hkinds, List.map_append, hfront, hback, List.append_assoc]

/-- **One faulty statement is one error, and changes nothing else.**  Let a simple statement be
inserted into a statement list of a tree that is fully punctuated and in order, and let the tree
be in order no more.  A source of the tree compiles; the pass over a source of the spoiled tree
does not match, and reports one error, at a token of the inserted statement.  It reports as many
warnings as before, and the methods of the program it leaves have the same names, types,
parameters and locals. -/
theorem parse_of_inserts {options : Options} (htyping : options.typing = .declared)
    (hstops : options.stopStatements = true) {items items' : Items} (hbraced : items.braced = true)
    (horder : items.InOrder) (hinserts : items.Inserts q before items') (hfaulty : ¬ items'.InOrder)
    {source source' : String} {tokens tokens' : List Token} (hwrites : Writes source items tokens)
    (hwrites' : Writes source' items' tokens') :
    ∃ c front inserted back, compile options source = .ok c ∧
      tokens' = front ++ inserted ++ back ∧ front.map Token.kind = before ∧
      inserted.map Token.kind = q.kinds ∧
      tokens.map Token.kind = (front ++ back).map Token.kind ∧
      (parse options source').Spoiled c inserted := by
  obtain ⟨program, hprogram⟩ := horder.exists_program? htyping hstops
  have hnone : items'.program? options = none := Option.eq_none_iff_forall_ne_some.mpr
    fun program' hprogram' => hfaulty ((Items.inOrder_iff htyping hstops).mpr ⟨program', hprogram'⟩)
  obtain ⟨front, inserted, back, rfl, hfront, hinserted, hback⟩ :=
    hinserts.exists_split hwrites.2 hwrites'.2
  obtain ⟨c, hcompile, rfl, hwarnings⟩ :=
    hwrites.exists_compile (items.closed_of_braced hbraced) hprogram
  have hspoiled := Parsed.Spoiled.of_inserts hinserts hwrites'
    (items'.closed_of_braced (hinserts.braced hbraced)) hprogram hnone hwarnings
  rw [Simple.tokens_eq hfront hinserted] at hspoiled
  exact ⟨c, front, inserted, back, hcompile, rfl, hfront, hinserted, hback, hspoiled⟩

/-- An assignment to a name that is not declared in the sample. -/
def sampleMistake : Simple := .assignment "y" (.single (.plain (.name "a"))) rfl

/-- The sample with that assignment in the loop. -/
def spoiledItems : Items :=
  .cons (.method .int "f" [⟨.int, "a"⟩] false
    (.cons (.statement (.loop (.comparison (.plain (.name "a")) .less (.plain (.number 3)))
      (.block (sampleMistake.before (.cons (.statement (.ret (some (.single
        (.sum (.plain (.name "a")) .add (.factor (.number 1))))))) .nil)))))
    (.cons (.statement sampleBug) .nil)))
  (.cons (.field .int "x")
  (.cons (.statement (.expression (.single (.plain (.assign "x"
    (.single (.plain (.number 2)))))))) .nil))

/-- The text of that tree. -/
def spoiledSource : String :=
  "int f(int a) { while (a < 3) { y = a; return a + 1; } bug { a; }; } int x; x = 2;"

/-- The sample compiles, and has one error with the assignment. -/
theorem parse_of_inserts_nested : ∃ before tokens tokens', sampleItems.braced = true ∧
    sampleItems.InOrder ∧ sampleItems.Inserts sampleMistake before spoiledItems ∧
    ¬ spoiledItems.InOrder ∧ Writes sampleSource sampleItems tokens ∧
    Writes spoiledSource spoiledItems tokens' ∧
    ∃ c front inserted back, compile {} sampleSource = .ok c ∧
      tokens' = front ++ inserted ++ back ∧ front.map Token.kind = before ∧
      inserted.map Token.kind = sampleMistake.kinds ∧
      tokens.map Token.kind = (front ++ back).map Token.kind ∧
      (parse {} spoiledSource).Spoiled c inserted := by
  have hbraced : sampleItems.braced = true := by decide
  have hinserts : sampleItems.Inserts sampleMistake _ spoiledItems :=
    .head (.method (.head (.statement (.loop (.block .here)))))
  have hnone : spoiledItems.program? {} = none := by decide +kernel
  have hfaulty : ¬ spoiledItems.InOrder := by
    intro horder
    obtain ⟨program, hprogram⟩ : ∃ program, spoiledItems.program? {} = some program :=
      horder.exists_program? rfl rfl
    rw [hnone] at hprogram
    cases hprogram
  have hwrites : Writes sampleSource sampleItems ((lexemes sampleSource).map Lexeme.token) :=
    ⟨scans_iff.mpr (by decide +kernel), by decide +kernel⟩
  have hwrites' : Writes spoiledSource spoiledItems ((lexemes spoiledSource).map Lexeme.token) :=
    ⟨scans_iff.mpr (by decide +kernel), by decide +kernel⟩
  exact ⟨_, _, _, hbraced, sampleItems_inOrder, hinserts, hfaulty, hwrites, hwrites',
    parse_of_inserts rfl rfl hbraced sampleItems_inOrder hinserts hfaulty hwrites hwrites'⟩

end OnePass
