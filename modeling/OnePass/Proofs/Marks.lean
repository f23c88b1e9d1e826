import Mathlib.Data.List.Perm.Subperm
import OnePass.Proofs.Translation

/-!
# Marked statements and warnings

A statement behind `bug` is marked as worth a look, which brings a warning.  The warning is
reported once the statement has been read, at the position saved before that.  A mark that is
skipped after an error brings none; a statement with an error in it is still warned of.

## Main definitions

* `markPositions` — where marks stand.
* `State.Flagged` — the warnings between two states stand at different marks that are passed.
* `Stmt.Within`, `Stmt.WithinItems` — a statement is part of another one, or of a list.
* `Items.Warns` — one warning for each mark, those inside of a marked statement first.

## Main results

* `Production.flags_grammar` — no production warns twice of a mark, or where none is.
* `Items.exists_within` — every mark begins a marked statement.
* `Stmt.WithinItems.infix_warnings` — the warnings of a statement come one after the other.
* `warnings_of_marks` — **warnings are at marks, and no two at the same**; a source that compiles
  has one for each mark.
-/

namespace OnePass

/-! ### Where warnings stand -/

/-- Where a warning is reported.  Errors have a position too, which is no concern of this module. -/
def Diagnostic.warningPosition? : Diagnostic → Option Position
  | .scan _ => none
  | .parse _ _ => none
  | .warning p _ => some p

/-- Where warnings are reported, the first one first. -/
def Diagnostics.warnings (d : Diagnostics) : List Position :=
  d.entries.toList.filterMap Diagnostic.warningPosition?

/-- Where marks stand among some tokens, in the order of the tokens and whether or not a statement
follows. -/
def markPositions (tokens : List Token) : List Position :=
  (tokens.filter fun t => t.kind = .keyword .bug).map Token.position

theorem mem_markPositions {tokens : List Token} {p : Position} : p ∈ markPositions tokens ↔
    ∃ t ∈ tokens, t.kind = .keyword .bug ∧ t.position = p := by
  simp [markPositions, and_assoc]

theorem markPositions_append (ts us : List Token) :
    markPositions (ts ++ us) = markPositions ts ++ markPositions us := by
  simp [markPositions]

theorem markPositions_sublist (tokens : List Token) :
    (markPositions tokens).Sublist (tokens.map Token.position) :=
  List.filter_sublist.map _

namespace State

variable {s s' s₁ s₂ : State}

theorem warnings_report (s : State) (d : Diagnostic) : (s.report d).diagnostics.warnings =
    s.diagnostics.warnings ++ d.warningPosition?.toList := by
  show (s.report d).reports.filterMap _ = s.reports.filterMap _ ++ _
  rw [reports_report, List.filterMap_append]
  cases d <;> rfl

theorem warnings_lookAt (s : State) (lexeme : Lexeme) (rest : List Lexeme) :
    (s.lookAt lexeme rest).diagnostics.warnings = s.diagnostics.warnings := by
  have hscan : (lexeme.errors.map Diagnostic.scan).filterMap Diagnostic.warningPosition? = [] := by
    simp [Diagnostic.warningPosition?]
  show (s.lookAt lexeme rest).reports.filterMap _ = s.reports.filterMap _
  rw [reports_lookAt, List.filterMap_append, hscan, List.append_nil]

theorem warnings_advance (s : State) : s.advance.diagnostics.warnings = s.diagnostics.warnings := by
  unfold advance
  split
  · rfl
  · exact warnings_lookAt s _ _

/-- Between the states warnings are reported at marks that are passed, and at none of them twice.
Their order is left open: a mark within a marked statement is warned of first. -/
def Flagged (s s' : State) : Prop :=
  ∃ passed added, s.tokens = passed ++ s'.tokens ∧
    s'.diagnostics.warnings = s.diagnostics.warnings ++ added ∧
    added.Subperm (markPositions passed)

namespace Flagged

/-- A step without a warning is in order, whatever it passes: marks that are skipped need none. -/
theorem of_leads (h : s.Leads s') (hwarnings : s'.diagnostics.warnings = s.diagnostics.warnings) :
    s.Flagged s' := by
  obtain ⟨passed, hpassed⟩ := h.tokens_suffix
  exact ⟨passed, [], hpassed.symm, by rw [hwarnings, List.append_nil], List.nil_subperm⟩

theorem of_eq (hl : s'.lookahead = s.lookahead) (hr : s'.rest = s.rest)
    (hd : s'.diagnostics = s.diagnostics) : s.Flagged s' :=
  of_leads (.of_eq hl hr hd) (by rw [hd])

theorem refl (s : State) : s.Flagged s := of_eq rfl rfl rfl

theorem trans (h : s.Flagged s₁) (h' : s₁.Flagged s₂) : s.Flagged s₂ := by
  obtain ⟨passed, added, htokens, hwarnings, hadded⟩ := h
  obtain ⟨passed', added', htokens', hwarnings', hadded'⟩ := h'
  refine ⟨passed ++ passed', added ++ added', ?_, ?_, ?_⟩
  · rw [htokens, htokens', List.append_assoc]
  · rw [hwarnings', hwarnings, List.append_assoc]
  · -- each half brings warnings of the marks it passes itself
    rw [markPositions_append]
    exact hadded.append hadded'

theorem getLast?_kinds (h : s.Flagged s') : s'.kinds.getLast? = s.kinds.getLast? := by
  obtain ⟨passed, -, htokens, -⟩ := h
  exact getLast?_kinds_of_suffix ⟨passed.map Token.kind, by
    rw [kinds, kinds, htokens, List.map_append]⟩

theorem report (s : State) (p : Position) (e : ParseError) : s.Flagged (s.report (.parse p e)) := by
  apply of_leads (.report s rfl)
  rw [warnings_report]
  exact List.append_nil _

theorem forward : Forward Flagged where
  refl := refl
  trans := trans
  lookAt {s lexeme rest} h := of_leads (.lookAt h) (warnings_lookAt s lexeme rest)
  touch _ _ _ := of_eq rfl rfl rfl

theorem advance (s : State) : s.Flagged s.advance := forward.advance s

theorem errorAt (s : State) (p : Position) (e : ParseError) : s.Flagged (s.errorAt p e) :=
  forward.errorAt report s p e

theorem skipUnexpected (s : State) : s.Flagged s.skipUnexpected :=
  forward.skipUnexpected report s

/-- **A warning of a mark that was ahead.**  The mark has been passed, and what has been warned of
since then stands behind it. -/
theorem mark (hend : s.kinds.getLast? = some .endOfInput) (hmark : s.lookahead.kind = .keyword .bug)
    (h : s.advance.Flagged s') (w : Warning) :
    s.Flagged (s'.report (.warning s.lookahead.position w)) := by
  obtain ⟨passed, added, htokens, hwarnings, hadded⟩ := h
  refine ⟨s.lookahead :: passed, added ++ [s.lookahead.position], ?_, ?_, ?_⟩
  · rw [tokens_advance hend (by simp [hmark]), htokens]
    rfl
  · rw [warnings_report, hwarnings, warnings_advance, List.append_assoc]
    rfl
  · -- the mark is passed first and warned of last, so the two lists agree up to the order
    have hpositions : markPositions (s.lookahead :: passed) =
        s.lookahead.position :: markPositions passed := by simp [markPositions, hmark]
    rw [hpositions]
    exact List.perm_append_singleton _ _ |>.subperm.trans (List.subperm_cons _ |>.mpr hadded)

end Flagged

end State

/-! ### Productions -/

namespace Production

variable {α β : Type}

/-- The production warns of marks only, and of none twice, whether it succeeds or is halted. -/
def Flags (p : Production α) : Prop := ∀ s : State, s.kinds.getLast? = some .endOfInput →
  Ends p s (fun _ s' => s.Flagged s') fun _ s' => s.Flagged s'

theorem flags_of {p : Production α}
    (h : ∀ s, Ends p s (fun _ s' => s.Flagged s') fun _ s' => s.Flagged s') : Flags p :=
  fun s _ => h s

namespace Flags

theorem bind {p : Production α} {f : α → Production β} (hp : Flags p) (hf : ∀ a, Flags (f a)) :
    Flags (p >>= f) := by
  intro s hend
  refine (hp s hend).bind fun a s₁ h₁ => ?_
  refine (hf a s₁ (h₁.getLast?_kinds.trans hend)).mono ?_ ?_
  · exact fun _ _ h => h₁.trans h
  · exact fun _ _ h => h₁.trans h

theorem ensuring {p : Production α} {last : Production Unit} (hp : Flags p) (hlast : Flags last) :
    Flags (ensuring p last) := by
  intro s hend
  -- the last production runs behind either way of ending
  have hthen (s₁ : State) (h₁ : s.Flagged s₁) :
      Ends last s₁ (fun _ s₂ => s.Flagged s₂) fun _ s₂ => s.Flagged s₂ :=
    (hlast s₁ (h₁.getLast?_kinds.trans hend)).mono (fun _ _ h => h₁.trans h) fun _ _ h => h₁.trans h
  exact Ends.ensuring ((hp s hend).mono (fun _ => hthen) fun _ => hthen)

end Flags

theorem flags_modify {g : State → State} (h : ∀ s : State, s.Flagged (g s)) : Flags (modify g) :=
  flags_of h

theorem flags_assemble (c : Assembler.Call) : Flags (assemble c) :=
  flags_of fun _ => ends_assemble (fun _ _ _ => .of_eq rfl rfl rfl) fun _ _ _ => .of_eq rfl rfl rfl

theorem flags_scope (c : Scopes.Call) : Flags (scope c) :=
  flags_of fun _ => ends_scope (fun _ _ _ => .of_eq rfl rfl rfl) fun _ _ _ => .of_eq rfl rfl rfl

theorem flags_closed : Closed fun _ p => Flags p where
  pure _ := flags_of fun s => .refl s
  bind := Flags.bind
  view _ := flags_of fun s => .refl s
  accept? _ := flags_of fun s => ends_accept? (fun _ _ => .advance s) fun _ => .refl s
  accept _ := flags_of fun s => ends_accept (fun _ => .advance s) fun _ => .refl s
  error e := flags_of fun s => .errorAt s _ e
  emit _ := flags_assemble _
  returnType := flags_assemble _
  errorAt p e := flags_of fun s => .errorAt s p e

/-- The position of a mark is saved while the marked statement is read.  This is the only production
that warns, so the only one with something to prove. -/
theorem flags_bugStatement {statement : Production Bool} (hs : Flags statement) :
    Flags (bugStatement statement) := by
  intro s hend
  refine ends_bind.mpr (ends_view.mpr (ends_bind.mpr
    (ends_accept (fun hcurrent => ?_) fun _ => ?_)))
  · -- the mark is ahead: what is read behind it warns of marks behind it, and then of this one
    have hmark := (State.current?_eq_some.mp hcurrent).2
    have hadvance := State.Flagged.advance s
    have hrequired := flags_closed.required hs s.advance (hadvance.getLast?_kinds.trans hend)
    refine (hrequired.mono (fun _ _ h => h) fun _ _ h => hadvance.trans h).bind fun _ s₁ h₁ => ?_
    have hends := (hadvance.trans h₁).getLast?_kinds.trans hend
    have hexpect := (flags_closed.expect .semicolon s₁ hends).mono (fun _ _ h => h₁.trans h)
      fun _ _ h => (hadvance.trans h₁).trans h
    exact hexpect.bind fun _ s₂ h₂ => h₂.mark hend hmark .possibleBug
  · exact .refl s

theorem flags_bracketed : Bracketed fun _ p => Flags p where
  toClosed := flags_closed
  assemble := flags_assemble
  stay c _ := flags_scope c
  inLoop {_ _} hs _ := .bind (flags_modify fun _ => .of_eq rfl rfl rfl) fun _ =>
    hs.ensuring (flags_modify fun _ => .of_eq rfl rfl rfl)
  inMethod {_ _} hs _ := .bind (flags_modify fun _ => .of_eq rfl rfl rfl) fun _ =>
    hs.ensuring (flags_modify fun _ => .of_eq rfl rfl rfl)
  inScope {_ _} hs := .bind (flags_scope .enter) fun _ => .bind (flags_closed.view _) fun _ =>
    .bind (flags_modify fun _ => .of_eq rfl rfl rfl) fun _ =>
      hs.ensuring (.bind (flags_modify fun _ => .of_eq rfl rfl rfl) fun _ => flags_scope .exit)
  bugStatement := flags_bugStatement
  note _ := flags_modify fun _ => .of_eq rfl rfl rfl
  broken _ := flags_of fun s => .refl s
  settle := flags_modify fun _ => .of_eq rfl rfl rfl
  skipUnexpected := flags_modify .skipUnexpected

/-- **No production warns twice of a mark**, or where there is none. -/
theorem flags_grammar (options : Options) : Grammar options fun _ p => Flags p := by
  have hleave := flags_bracketed.branching.leaveOf fun _ => flags_of fun s => .refl s
  exact flags_bracketed.grammar (fun _ => hleave _ _ _) fun _ => hleave _ _ _

end Production

open Production

/-- The warnings of a pass stand at marks of its source, and no two at the same one. -/
theorem parse_warnings_subperm (options : Options) (source : String) :
    (parse options source).state.diagnostics.warnings.Subperm
      (markPositions (sourceTokens source)) := by
  obtain ⟨assembler, log, -, hparse⟩ := parse_of_items options source
  -- the pass of a source is that of its statement list, from a state without warnings
  have htokens : (begunState source assembler log).tokens = sourceTokens source :=
    State.tokens_advance_start source
  have hwarnings : (begunState source assembler log).diagnostics.warnings = [] :=
    (State.start (lexemes source)).warnings_advance
  have hend : (begunState source assembler log).kinds.getLast? = some .endOfInput := by
    obtain ⟨front, p, heq, -⟩ := sourceTokens_eq source
    rw [State.kinds, htokens, heq]
    simp
  have hflagged : (begunState source assembler log).Flagged (parse options source).state := by
    obtain ⟨hok, herror⟩ := hparse (Q := fun s => (begunState source assembler log).Flagged s)
      ((flags_grammar options).items _ _ _ hend)
    cases houtcome : (parse options source).outcome with
    | ok matched => exact hok matched houtcome
    | error halt => exact herror halt houtcome
  obtain ⟨passed, added, hpassed, heq, hadded⟩ := hflagged
  rw [heq, hwarnings, List.nil_append, ← htokens, hpassed, markPositions_append]
  exact hadded.trans (List.sublist_append_left _ _).subperm

/-- No two marks stand at the same position, because the tokens of a source stand at increasing
ones. -/
theorem nodup_markPositions (source : String) : (markPositions (sourceTokens source)).Nodup := by
  have hpairwise := (pairwise_sourceTokens source).map Token.position fun _ _ h => h
  exact (hpairwise.sublist (markPositions_sublist _)).imp fun hlt => ne_of_lt hlt

/-! ### Statements within statements -/

namespace Stmt

mutual

/-- The statement is part of another one, or this statement itself, and begins so many tokens behind
it. -/
inductive Within (u : Stmt) : Nat → Stmt → Prop
  | self : Within u 0 u
  | block {items : Items} {n : Nat} : WithinItems u n items → Within u (1 + n) (.block items)
  | branch {condition : Expr .relation} {body : Stmt} {n : Nat} :
    Within u n body → Within u (condition.conditionKinds.length + 1 + n) (.branch condition body)
  | body {condition : Expr .relation} {body other : Stmt} {n : Nat} :
    Within u n body →
      Within u (condition.conditionKinds.length + 1 + n) (.choice condition body other)
  | other {condition : Expr .relation} {body other : Stmt} {n : Nat} :
    Within u n other → Within u (condition.conditionKinds.length + 1 + (body.kinds.length + 1) + n)
      (.choice condition body other)
  | loop {condition : Expr .relation} {body : Stmt} {n : Nat} :
    Within u n body → Within u (condition.conditionKinds.length + 1 + n) (.loop condition body)
  | bug {body : Stmt} {n : Nat} : Within u n body → Within u (1 + n) (.bug body)

/-- The statement is part of an item, in a method behind its header. -/
inductive WithinItem (u : Stmt) : Nat → Item → Prop
  | method {type : TypeName} {name : String} {ds : List Declarator} {comma : Bool} {body : Items}
      {n : Nat} : WithinItems u n body →
        WithinItem u ((Declarator.headerKinds type name ds comma).length + n)
          (.method type name ds comma body)
  | statement {t : Stmt} {n : Nat} : Within u n t → WithinItem u n (.statement t)

/-- The statement is part of a statement list, so many tokens behind the beginning of the list. -/
inductive WithinItems (u : Stmt) : Nat → Items → Prop
  | head {item : Item} {rest : Items} {n : Nat} :
    WithinItem u n item → WithinItems u n (.cons item rest)
  | tail {item : Item} {rest : Items} {n : Nat} :
    WithinItems u n rest → WithinItems u (item.kinds.length + n) (.cons item rest)

end

end Stmt

section

variable {α : Type} {xs ys : List α} {n : Nat} {a : α}

theorem getElem?_append_of_left (h : xs[n]? = some a) (ys : List α) : (xs ++ ys)[n]? = some a :=
  (List.getElem?_append_left (List.getElem?_eq_some_iff.mp h).1).trans h

theorem getElem?_append_of_right (xs : List α) (h : ys[n]? = some a) :
    (xs ++ ys)[xs.length + n]? = some a := by
  rw [List.getElem?_append_right (Nat.le_add_right _ _), Nat.add_sub_cancel_left, h]

/-- What stands in two lists, one behind the other, stands in one of them, at a place counted from
its own beginning. -/
theorem getElem?_append_cases (h : (xs ++ ys)[n]? = some a) :
    xs[n]? = some a ∨ ∃ m, n = xs.length + m ∧ ys[m]? = some a := by
  rcases Nat.lt_or_ge n xs.length with hlt | hge
  · exact .inl ((List.getElem?_append_left hlt).symm.trans h)
  · obtain ⟨m, rfl⟩ := Nat.exists_eq_add_of_le hge
    rw [List.getElem?_append_right hge, Nat.add_sub_cancel_left] at h
    exact .inr ⟨m, rfl, h⟩

theorem left_of_getElem?_append (h : (xs ++ ys)[n]? = some a) (hys : a ∉ ys) : xs[n]? = some a := by
  rcases getElem?_append_cases h with h | ⟨m, -, h⟩
  · exact h
  · exact absurd (List.mem_of_getElem? h) hys

theorem right_of_getElem?_append (h : (xs ++ ys)[n]? = some a) (hxs : a ∉ xs) :
    ∃ m, n = xs.length + m ∧ ys[m]? = some a := by
  rcases getElem?_append_cases h with h | h
  · exact absurd (List.mem_of_getElem? h) hxs
  · exact h

end

section

variable {u : Stmt} {k : Token.Kind}

mutual

/-- The tokens of a part stand where it is said to begin.  The places of the constructors are those
of the token lists. -/
theorem Stmt.Within.getElem?_kinds {i : Nat} (hk : u.kinds[i]? = some k) {n : Nat} {t : Stmt}
    (h : u.Within n t) : t.kinds[n + i]? = some k := by
  cases h with
  | self => rwa [Nat.zero_add]
  | block h =>
    have hitems := getElem?_append_of_right [.symbol .leftBrace] (h.getElem?_kinds hk)
    rw [Nat.add_assoc]
    exact getElem?_append_of_left hitems _
  | branch h =>
    rw [Nat.add_assoc]
    exact getElem?_append_of_right (_ :: _) (h.getElem?_kinds hk)
  | body h =>
    rw [Nat.add_assoc]
    exact getElem?_append_of_left (getElem?_append_of_right (_ :: _) (h.getElem?_kinds hk)) _
  | @other condition body other n h =>
    -- condition, body and keyword are in front of the alternative
    have hother := getElem?_append_of_right (.keyword .if :: condition.conditionKinds ++ body.kinds)
      (getElem?_append_of_right [.keyword .else] (h.getElem?_kinds hk))
    have hplace : (Token.Kind.keyword .if :: condition.conditionKinds ++ body.kinds).length +
        ([Token.Kind.keyword .else].length + (n + i)) =
          condition.conditionKinds.length + 1 + (body.kinds.length + 1) + n + i := by
      simp only [List.length_append, List.length_cons, List.length_nil]
      omega
    rwa [hplace] at hother
  | loop h =>
    rw [Nat.add_assoc]
    exact getElem?_append_of_right (_ :: _) (h.getElem?_kinds hk)
  | bug h =>
    have hbody := getElem?_append_of_right [.keyword .bug] (h.getElem?_kinds hk)
    rw [Nat.add_assoc]
    exact getElem?_append_of_left hbody _

theorem Stmt.WithinItem.getElem?_kinds {i : Nat} (hk : u.kinds[i]? = some k) {n : Nat} {item : Item}
    (h : u.WithinItem n item) : item.kinds[n + i]? = some k := by
  cases h with
  | method h =>
    rw [Nat.add_assoc]
    exact getElem?_append_of_left (getElem?_append_of_right _ (h.getElem?_kinds hk)) _
  | statement h => exact h.getElem?_kinds hk

theorem Stmt.WithinItems.getElem?_kinds {i : Nat} (hk : u.kinds[i]? = some k) {n : Nat}
    {items : Items} (h : u.WithinItems n items) : items.kinds[n + i]? = some k := by
  cases h with
  | head h => exact getElem?_append_of_left (h.getElem?_kinds hk) _
  | tail h =>
    rw [Nat.add_assoc]
    exact getElem?_append_of_right _ (h.getElem?_kinds hk)

end

mutual

/-- The warnings of a part come one after the other, as those of a statement of its own would. -/
theorem Stmt.Within.infix_warnings {n : Nat} {t : Stmt} (h : u.Within n t) (ts : List Token) :
    u.warnings (ts.drop n) <:+: t.warnings ts := by
  cases h with
  | self => exact List.infix_refl _
  | block h =>
    rw [← List.drop_drop]
    exact h.infix_warnings (ts.drop 1)
  | branch h =>
    rw [← List.drop_drop]
    exact h.infix_warnings _
  | body h =>
    rw [← List.drop_drop]
    exact (h.infix_warnings _).trans (List.prefix_append _ _).isInfix
  | other h =>
    rw [← List.drop_drop, ← List.drop_drop]
    exact (h.infix_warnings _).trans (List.suffix_append _ _).isInfix
  | loop h =>
    rw [← List.drop_drop]
    exact h.infix_warnings _
  | bug h =>
    rw [← List.drop_drop]
    exact (h.infix_warnings _).trans (List.prefix_append _ _).isInfix

theorem Stmt.WithinItem.infix_warnings {n : Nat} {item : Item} (h : u.WithinItem n item)
    (ts : List Token) : u.warnings (ts.drop n) <:+: item.warnings ts := by
  cases h with
  | method h =>
    rw [← List.drop_drop]
    exact h.infix_warnings _
  | statement h => exact h.infix_warnings ts

theorem Stmt.WithinItems.infix_warnings {n : Nat} {items : Items} (h : u.WithinItems n items)
    (ts : List Token) : u.warnings (ts.drop n) <:+: items.warnings ts := by
  cases h with
  | head h => exact (h.infix_warnings ts).trans (List.prefix_append _ _).isInfix
  | tail h =>
    rw [← List.drop_drop]
    exact (h.infix_warnings _).trans (List.suffix_append _ _).isInfix

end

end

/-! ### Marks begin marked statements -/

theorem Expr.bug_notMem_condition {w : Keyword} (hw : w ≠ .bug) (e : Expr .relation) :
    .keyword .bug ∉ (.keyword w :: e.conditionKinds) := by
  simp [e.keyword_notMem_conditionKinds .bug, hw.symm]

mutual

/-- A mark within a statement begins a marked statement.  Neither conditions nor headers have one,
so it is within a body or the statement's own. -/
theorem Stmt.exists_within : ∀ (t : Stmt) {n : Nat}, t.kinds[n]? = some (.keyword .bug) →
    ∃ body, (Stmt.bug body).Within n t
  | .block items, n, h => by
    -- a mark is no brace, so it is between them
    have hinside : ([.symbol .leftBrace] ++ items.kinds)[n]? = some (.keyword .bug) :=
      left_of_getElem?_append h (by simp)
    obtain ⟨m, rfl, hm⟩ := right_of_getElem?_append hinside (by simp)
    obtain ⟨inner, hinner⟩ := items.exists_within hm
    exact ⟨inner, .block hinner⟩
  | .branch condition body, n, h => by
    obtain ⟨m, rfl, hm⟩ := right_of_getElem?_append h (condition.bug_notMem_condition (by decide))
    obtain ⟨inner, hinner⟩ := body.exists_within hm
    exact ⟨inner, .branch hinner⟩
  | .choice condition body other, n, h => by
    -- a mark in front of the alternative is in the body, since none is in the condition
    rcases getElem?_append_cases h with hbody | ⟨i, hi, hother⟩
    · obtain ⟨m, rfl, hm⟩ :=
        right_of_getElem?_append hbody (condition.bug_notMem_condition (by decide))
      obtain ⟨inner, hinner⟩ := body.exists_within hm
      exact ⟨inner, .body hinner⟩
    · have hother : ([.keyword .else] ++ other.kinds)[i]? = some (.keyword .bug) := hother
      obtain ⟨m, rfl, hm⟩ := right_of_getElem?_append hother (by simp)
      obtain ⟨inner, hinner⟩ := other.exists_within hm
      have hn : n = condition.conditionKinds.length + 1 + (body.kinds.length + 1) + m := by
        simp only [List.length_append, List.length_cons, List.length_nil] at hi
        omega
      exact ⟨inner, hn ▸ .other hinner⟩
  | .loop condition body, n, h => by
    obtain ⟨m, rfl, hm⟩ := right_of_getElem?_append h (condition.bug_notMem_condition (by decide))
    obtain ⟨inner, hinner⟩ := body.exists_within hm
    exact ⟨inner, .loop hinner⟩
  | .bug body, 0, _ => ⟨body, .self⟩
  | .bug body, n + 1, h => by
    have hbody : (body.kinds ++ [.symbol .semicolon])[n]? = some (.keyword .bug) := h
    obtain ⟨inner, hinner⟩ := body.exists_within (left_of_getElem?_append hbody (by simp))
    exact ⟨inner, Nat.add_comm 1 n ▸ .bug hinner⟩
  | .expression e, n, h => absurd (List.mem_of_getElem? h) (e.keyword_notMem_kinds .bug)
  | .empty, n, h => absurd (List.mem_of_getElem? h) (by simp [Stmt.kinds])
  | .print argument, n, h =>
    absurd (List.mem_of_getElem? h) (by cases argument <;> simp [Stmt.kinds])
  | .ret value, n, h => by
    refine absurd (List.mem_of_getElem? h) ?_
    cases value with
    | none => simp [Stmt.kinds]
    | some e => simp [Stmt.kinds, e.keyword_notMem_kinds .bug]
  | .leave exit, n, h =>
    absurd (List.mem_of_getElem? h) (by cases exit <;> simp [Stmt.kinds, Exit.word])

theorem Item.exists_within : ∀ (item : Item) {n : Nat}, item.kinds[n]? = some (.keyword .bug) →
    ∃ body, (Stmt.bug body).WithinItem n item
  | .field type _, n, h =>
    absurd (List.mem_of_getElem? h) (by simp [Item.kinds, (type.word_ne .bug rfl).symm])
  | .method type name ds comma body, n, h => by
    obtain ⟨m, rfl, hm⟩ := right_of_getElem?_append (left_of_getElem?_append h (by simp))
      (Declarator.keyword_notMem_headerKinds rfl type name ds comma)
    obtain ⟨inner, hinner⟩ := body.exists_within hm
    exact ⟨inner, .method hinner⟩
  | .statement t, n, h => by
    obtain ⟨inner, hinner⟩ := t.exists_within h
    exact ⟨inner, .statement hinner⟩

theorem Items.exists_within : ∀ (items : Items) {n : Nat}, items.kinds[n]? = some (.keyword .bug) →
    ∃ body, (Stmt.bug body).WithinItems n items
  | .nil, n, h => absurd (List.mem_of_getElem? h) List.not_mem_nil
  | .cons item rest, n, h => by
    rcases getElem?_append_cases h with hitem | ⟨m, rfl, hm⟩
    · obtain ⟨inner, hinner⟩ := item.exists_within hitem
      exact ⟨inner, .head hinner⟩
    · obtain ⟨inner, hinner⟩ := rest.exists_within hm
      exact ⟨inner, .tail hinner⟩

end

/-! ### Whole sources -/

/-- The warnings of a tree.  There is one for each mark, and the one of a mark within a marked
statement comes before that of the statement around it. -/
structure Items.Warns (items : Items) (tokens : List Token) (warnings : List Position) : Prop where
  /-- Marks are what marked statements begin with. -/
  begins : ∀ n t, tokens[n]? = some t →
    (t.kind = .keyword .bug ↔ ∃ body, (Stmt.bug body).WithinItems n items)
  perm : warnings.Perm (markPositions tokens)
  nested : ∀ n body m inner, (Stmt.bug body).WithinItems n items → (Stmt.bug inner).Within m body →
    ∃ t t', tokens[n]? = some t ∧ tokens[n + 1 + m]? = some t' ∧
      [t'.position, t.position].Sublist warnings

theorem Stmt.getElem?_kinds_bug (body : Stmt) : (Stmt.bug body).kinds[0]? = some (.keyword .bug) :=
  rfl

/-- The warning of a marked statement comes behind those of the statement, because it is reported
once that has been read. -/
theorem Stmt.warnings_bug {ts : List Token} {n : Nat} {t : Token} (h : ts[n]? = some t)
    (body : Stmt) : (Stmt.bug body).warnings (ts.drop n) =
      body.warnings (ts.drop (n + 1)) ++ [.warning t.position .possibleBug] := by
  rw [Stmt.warnings, List.drop_drop, List.head?_drop, h]
  rfl

namespace Writes

variable {source : String} {items : Items} {tokens : List Token}

theorem getElem?_kinds (h : Writes source items tokens) (n : Nat) :
    (items.kinds ++ [.endOfInput])[n]? = tokens[n]?.map Token.kind := by
  rw [← h.2, List.getElem?_map]

/-- The tokens of a tree are tokens of the source, at the same places. -/
theorem exists_token (h : Writes source items tokens) {n : Nat} {k : Token.Kind}
    (hk : items.kinds[n]? = some k) : ∃ t, tokens[n]? = some t ∧ t.kind = k := by
  have hkind := getElem?_append_of_left hk [.endOfInput]
  rw [h.getElem?_kinds] at hkind
  exact Option.map_eq_some_iff.mp hkind

/-- A token is a mark exactly if a marked statement begins with it.  So marks can be counted in the
tree or among the tokens. -/
theorem isMark_iff (h : Writes source items tokens) {n : Nat} {t : Token}
    (ht : tokens[n]? = some t) :
    t.kind = .keyword .bug ↔ ∃ body, (Stmt.bug body).WithinItems n items := by
  constructor
  · intro hmark
    have hkind := h.getElem?_kinds n
    rw [ht, Option.map_some, hmark] at hkind
    exact items.exists_within (left_of_getElem?_append hkind (by simp))
  · rintro ⟨body, hbody⟩
    obtain ⟨t', ht', hmark⟩ := h.exists_token (hbody.getElem?_kinds body.getElem?_kinds_bug)
    obtain rfl : t = t' := Option.some.inj (ht.symm.trans ht')
    exact hmark

/-- The warning of a mark within a marked statement comes before that of the statement, although it
stands behind it in the source. -/
theorem nested_sublist (h : Writes source items tokens) {n m : Nat} {body inner : Stmt}
    (hbody : (Stmt.bug body).WithinItems n items) (hinner : (Stmt.bug inner).Within m body) :
    ∃ t t', tokens[n]? = some t ∧ tokens[n + 1 + m]? = some t' ∧
      [Diagnostic.warning t'.position .possibleBug, .warning t.position .possibleBug].Sublist
        (items.warnings tokens) := by
  have hinside := (Stmt.Within.bug hinner).getElem?_kinds inner.getElem?_kinds_bug
  obtain ⟨t, ht, -⟩ := h.exists_token (hbody.getElem?_kinds body.getElem?_kinds_bug)
  obtain ⟨t', ht', -⟩ := h.exists_token (hbody.getElem?_kinds hinside)
  rw [Nat.add_zero] at ht
  rw [Nat.add_zero, ← Nat.add_assoc] at ht'
  have houter := hbody.infix_warnings tokens
  have hwithin := hinner.infix_warnings (tokens.drop (n + 1))
  rw [List.drop_drop, Stmt.warnings_bug ht'] at hwithin
  rw [Stmt.warnings_bug ht] at houter
  refine ⟨t, t', ht, ht', List.Sublist.trans ?_ houter.sublist⟩
  -- the inner warning is the last one of its statement, which is all in front of the outer one
  exact (((List.sublist_append_right _ _).trans hwithin.sublist).append (.refl _) :)

end Writes

/-- The reports of a compilation are those of the pass: producing the program adds none. -/
theorem diagnostics_of_compile {options : Options} {source : String} {c : Compilation}
    (h : compile options source = .ok c) :
    (parse options source).state.diagnostics = c.diagnostics := by
  obtain ⟨log, hcompile⟩ := compile_eq_ok options source
  obtain ⟨s, logged, hrun, -, hdiagnostics⟩ := (hcompile c).mp h
  rw [parse_of_ok hrun]
  exact hdiagnostics

/-- The warnings of a source that compiles are those of the tree it is read as.  What is known of
any pass, that no mark is warned of twice, gives one half of the count. -/
theorem Items.warns_of_compile {options : Options} {source : String} {c : Compilation}
    (h : compile options source = .ok c) {items : Items} {tokens : List Token}
    (hwrites : Writes source items tokens)
    (hreports : c.diagnostics.entries.toList = items.warnings tokens) :
    items.Warns tokens c.diagnostics.warnings := by
  have hwarnings : c.diagnostics.warnings =
      (items.warnings tokens).filterMap Diagnostic.warningPosition? :=
    congrArg (List.filterMap _) hreports
  have hsubperm := parse_warnings_subperm options source
  rw [diagnostics_of_compile h, hwrites.tokens_eq] at hsubperm
  have hnodup := nodup_markPositions source
  rw [hwrites.tokens_eq] at hnodup
  refine ⟨fun n t ht => hwrites.isMark_iff ht, ?_, ?_⟩
  · -- no position occurs twice, so it is enough that every mark has a warning
    refine hsubperm.antisymm (List.subperm_of_subset hnodup ?_)
    intro p hp
    obtain ⟨t, ht, hmark, rfl⟩ := mem_markPositions.mp hp
    obtain ⟨n, ht⟩ := List.mem_iff_getElem?.mp ht
    obtain ⟨body, hbody⟩ := (hwrites.isMark_iff ht).mp hmark
    have hinfix := hbody.infix_warnings tokens
    rw [Stmt.warnings_bug ht] at hinfix
    rw [hwarnings]
    exact List.mem_filterMap.mpr ⟨_, hinfix.subset List.mem_concat_self, rfl⟩
  · intro n body m inner hbody hinner
    obtain ⟨t, t', ht, ht', hsublist⟩ := hwrites.nested_sublist hbody hinner
    rw [hwarnings]
    exact ⟨t, t', ht, ht', hsublist.filterMap Diagnostic.warningPosition?⟩

/-- **Warnings are at marks, and no two at the same**, whatever the outcome of a pass.  If the
source compiles, there is one for each mark, and a statement within a marked one is warned of
first. -/
theorem warnings_of_marks (options : Options) (source : String) :
    (parse options source).state.diagnostics.warnings.Nodup ∧
    (∀ p ∈ (parse options source).state.diagnostics.warnings,
      ∃ t ∈ sourceTokens source, t.kind = .keyword .bug ∧ t.position = p) ∧
    ∀ c, compile options source = .ok c → ∃ items, Writes source items (sourceTokens source) ∧
      items.program? options = some c.program ∧
      items.Warns (sourceTokens source) c.diagnostics.warnings := by
  have hsubperm := parse_warnings_subperm options source
  refine ⟨?_, ?_, ?_⟩
  · obtain ⟨warnings, hperm, hsublist⟩ := hsubperm
    exact hperm.nodup_iff.mp ((nodup_markPositions source).sublist hsublist)
  · intro p hp
    exact mem_markPositions.mp (hsubperm.subset hp)
  · intro c hc
    obtain ⟨items, tokens, hwrites, -, hprogram, hreports⟩ := compile_eq_ok_iff.mp hc
    obtain rfl := hwrites.tokens_eq
    exact ⟨items, hwrites, hprogram, items.warns_of_compile hc hwrites hreports⟩

/-- A marked statement in a method that is declared within another marked statement. -/
def markedSource : String := "bug { void f() { bug bug ; ; ; } bug ; ; } ; bug ; ;"

theorem warnings_of_marks_nested : ∃ c, compile {} markedSource = .ok c ∧
    c.diagnostics.warnings = [⟨1, 22⟩, ⟨1, 18⟩, ⟨1, 34⟩, ⟨1, 1⟩, ⟨1, 46⟩] ∧
    ∃ items, Writes markedSource items (sourceTokens markedSource) ∧
      items.program? {} = some c.program ∧
      items.Warns (sourceTokens markedSource) c.diagnostics.warnings := by
  have hwarnings : (compile {} markedSource).toOption.map (fun c => c.diagnostics.warnings) =
      some [⟨1, 22⟩, ⟨1, 18⟩, ⟨1, 34⟩, ⟨1, 1⟩, ⟨1, 46⟩] := by
    decide +kernel
  obtain ⟨c, hc, hwarnings⟩ := Option.map_eq_some_iff.mp hwarnings
  have hok := eq_ok_of_toOption hc
  exact ⟨c, hok, hwarnings, (warnings_of_marks {} markedSource).2.2 c hok⟩

-- The name is not declared, so what follows it is skipped, the second mark included.
example : (parse {} "bug x bug ; ;").state.diagnostics.warnings = [⟨1, 1⟩] := by decide +kernel

end OnePass
