import OnePass.Proofs.Typing

/-!
# What is skipped after a mistake

A mistake is reported once, and the tokens up to and including the next semicolon are skipped.
Usually this is the rest of the statement with the mistake.  But an assignment that is an operand
reads its own semicolon, and if a mistake is found only then, it is what follows the statement
that is skipped.

## Main definitions

* `Expr.Tidy` — an assignment in the expression is its last operand.
* `Line` — the tokens of a statement in front of its semicolon.
* `discard` — the tokens that are skipped.
* `State.On` — part of a statement has been read, and all is well so far.
* `State.Trips` — a mistake has been reported in a statement, and tokens skipped.

## Main results

* `Expr.pure_or_isAssign` — with declared types no operator takes an assignment.
* `State.Ready.errorAt` — an error skips the tokens to be discarded.
* `State.On.errorAt` — **an error in a statement skips the rest of it, or what follows it**.
-/

namespace OnePass

/-! ### Assignments at the end -/

/-- An expression without assignments is none itself. -/
theorem Expr.isAssign_of_pure : ∀ {r : Rung} {e : Expr r}, e.pure = true → e.isAssign = false
  | _, .number _, _ => rfl
  | _, .boolean _, _ => rfl
  | _, .name _, _ => rfl
  | _, .factor e, h => isAssign_of_pure (e := e) h
  | _, .product _ _ _, _ => rfl
  | _, .unsigned e, h => isAssign_of_pure (e := e) h
  | _, .signed _ _, _ => rfl
  | _, .first e, h => isAssign_of_pure (e := e) h
  | _, .sum _ _ _, _ => rfl
  | _, .single e, h => isAssign_of_pure (e := e) h
  | _, .comparison _ _ _, _ => rfl

/-- An expression without assignments has a value, if it means something. -/
theorem Expr.ne_void_of_pure {σ : Site} (hσ : σ.Valued) {r : Rung} {e : Expr r}
    (hpure : e.pure = true) {ty : Ty} {code : List Operation}
    (h : e.lower? σ = some (ty, code)) : ty ≠ .void := by
  intro hvoid
  have hassign := (Expr.eq_void_iff hσ h).mp hvoid
  -- only an assignment is without a value
  rw [Expr.isAssign_of_pure hpure] at hassign
  cases hassign

theorem Expr.tidy_of_pure : ∀ {r : Rung} {e : Expr r}, e.pure = true → e.tidy = true
  | _, .number _, _ => rfl
  | _, .boolean _, _ => rfl
  | _, .name _, _ => rfl
  | _, .factor e, h => tidy_of_pure (e := e) h
  | _, .product _ _ right, h => by
    rw [Expr.pure, Bool.and_eq_true] at h
    rw [tidy, h.1, tidy_of_pure h.2, Bool.and_self]
  | _, .unsigned e, h => tidy_of_pure (e := e) h
  | _, .signed _ e, h => tidy_of_pure (e := e) h
  | _, .first e, h => tidy_of_pure (e := e) h
  | _, .sum _ _ right, h => by
    rw [Expr.pure, Bool.and_eq_true] at h
    rw [tidy, h.1, tidy_of_pure h.2, Bool.and_self]
  | _, .single e, h => tidy_of_pure (e := e) h
  | _, .comparison _ _ right, h => by
    rw [Expr.pure, Bool.and_eq_true] at h
    rw [tidy, h.1, tidy_of_pure h.2, Bool.and_self]

/-- Mistakes in an expression without assignments are found inside of it, and in front of the
semicolon of its statement. -/
theorem Expr.spills_of_pure (σ : Site) : ∀ {r : Rung} {e : Expr r}, e.pure = true →
    e.spills σ = false
  | _, .number _, _ => rfl
  | _, .boolean _, _ => rfl
  | _, .name _, _ => rfl
  | _, .factor e, h => spills_of_pure σ (e := e) h
  | _, .product _ _ right, h => by
    rw [Expr.pure, Bool.and_eq_true] at h
    rw [spills, spills_of_pure σ h.2, Bool.and_false]
  | _, .unsigned e, h => spills_of_pure σ (e := e) h
  | _, .signed _ e, h => spills_of_pure σ (e := e) h
  | _, .first e, h => spills_of_pure σ (e := e) h
  | _, .sum _ _ right, h => by
    rw [Expr.pure, Bool.and_eq_true] at h
    rw [spills, spills_of_pure σ h.2, Bool.and_false]
  | _, .single e, h => spills_of_pure σ (e := e) h
  | _, .comparison _ _ right, h => by
    rw [Expr.pure, Bool.and_eq_true] at h
    rw [spills, spills_of_pure σ h.2, Bool.and_false]

/-- A mistake that is found behind an assignment that stands alone is found behind its semicolon, if
the assignment itself means something. -/
theorem Expr.spills_of_isAssign (σ : Site) : ∀ {r : Rung} {e : Expr r}, e.isAssign = true →
    e.spills σ = (e.lower? σ).isSome
  | _, .assign _ _, _ => rfl
  | _, .factor e, h => spills_of_isAssign σ (e := e) h
  | _, .unsigned e, h => spills_of_isAssign σ (e := e) h
  | _, .first e, h => spills_of_isAssign σ (e := e) h
  | _, .single e, h => spills_of_isAssign σ (e := e) h

/-- What has a value is not an assignment, so it has none in it. -/
theorem Expr.pure_of_ne_void {σ : Site} (hσ : σ.Valued) {r : Rung} {e : Expr r} {ty : Ty}
    {code : List Operation} (hlower : e.lower? σ = some (ty, code)) (hvoid : ty ≠ .void)
    (h : e.pure = true ∨ e.isAssign = true) : e.pure = true :=
  h.resolve_right (mt (eq_void_iff hσ hlower).mpr hvoid)

/-- With declared types no operator takes an assignment: it needs a value on its right, too. -/
theorem Expr.pure_or_isAssign {σ : Site} (htyping : σ.options.typing = .declared)
    (hσ : σ.Valued) : ∀ {r : Rung} {e : Expr r} {ty : Ty} {code : List Operation},
      e.tidy = true → e.lower? σ = some (ty, code) → e.pure = true ∨ e.isAssign = true
  | _, .number _, _, _, _, _ => .inl rfl
  | _, .boolean _, _, _, _, _ => .inl rfl
  | _, .name _, _, _, _, _ => .inl rfl
  | _, .assign _ _, _, _, _, _ => .inr rfl
  | _, .factor e, _, _, htidy, h => pure_or_isAssign htyping hσ (e := e) htidy h
  | _, .product _ _ right, _, _, htidy, h => by
    rw [tidy, Bool.and_eq_true] at htidy
    obtain ⟨tl, cl, tr, cr, hleft, hright, hty, -⟩ := lower?_product.mp h
    -- the left operand is of a known type, so the right one has to be of a type that goes with it
    have hvoid := Ty.right_ne_void_of_binary? (Ty.operate?_eq_some.mp hty).2
      (ne_unknown_of_lower? htyping hσ hleft)
    have hpure := pure_of_ne_void hσ hright hvoid (pure_or_isAssign htyping hσ htidy.2 hright)
    exact .inl (by rw [Expr.pure, htidy.1, hpure, Bool.and_self])
  | _, .unsigned e, _, _, htidy, h => pure_or_isAssign htyping hσ (e := e) htidy h
  | _, .signed _ e, _, _, htidy, h => by
    obtain ⟨operand, operations, he, hty, -⟩ := lower?_signed.mp h
    have hvoid : operand ≠ .void := by
      rintro rfl
      cases hty
    exact .inl (pure_of_ne_void hσ (e := e) he hvoid (pure_or_isAssign htyping hσ htidy he))
  | _, .first e, _, _, htidy, h => pure_or_isAssign htyping hσ (e := e) htidy h
  | _, .sum _ _ right, _, _, htidy, h => by
    rw [tidy, Bool.and_eq_true] at htidy
    obtain ⟨tl, cl, tr, cr, hleft, hright, hty, -⟩ := lower?_sum.mp h
    have hvoid := Ty.right_ne_void_of_binary? (Ty.operate?_eq_some.mp hty).2
      (ne_unknown_of_lower? htyping hσ hleft)
    have hpure := pure_of_ne_void hσ hright hvoid (pure_or_isAssign htyping hσ htidy.2 hright)
    exact .inl (by rw [Expr.pure, htidy.1, hpure, Bool.and_self])
  | _, .single e, _, _, htidy, h => pure_or_isAssign htyping hσ (e := e) htidy h
  | _, .comparison _ _ right, _, _, htidy, h => by
    rw [tidy, Bool.and_eq_true] at htidy
    obtain ⟨tl, cl, tr, cr, hleft, hright, ⟨hne, hcomparable⟩, -, -⟩ := lower?_comparison.mp h
    -- comparable types are the same if they are known
    have hvoid : tr ≠ .void := by
      rw [← Ty.eq_of_comparable hcomparable (ne_unknown_of_lower? htyping hσ hleft)
        (ne_unknown_of_lower? htyping hσ hright)]
      exact hne
    have hpure := pure_of_ne_void hσ hright hvoid (pure_or_isAssign htyping hσ htidy.2 hright)
    exact .inl (by rw [Expr.pure, htidy.1, hpure, Bool.and_self])

/-- There is at most one assignment in the expression, which is the last operand.  With the older
typing, where an operator may take it, it is the only operand. -/
structure Expr.Tidy (typing : Typing) {r : Rung} (e : Expr r) : Prop where
  tidy : e.tidy = true
  alone : typing = .declared ∨ e.pure = true ∨ e.isAssign = true

theorem Expr.Tidy.of_pure {typing : Typing} {r : Rung} {e : Expr r} (h : e.pure = true) :
    e.Tidy typing :=
  ⟨tidy_of_pure h, .inr (.inl h)⟩

theorem Expr.Tidy.pure_or_isAssign {σ : Site} (hσ : σ.Valued) {r : Rung} {e : Expr r} {ty : Ty}
    {code : List Operation} (h : e.Tidy σ.options.typing) (hlower : e.lower? σ = some (ty, code)) :
    e.pure = true ∨ e.isAssign = true :=
  h.alone.elim (fun htyping => Expr.pure_or_isAssign htyping hσ h.tidy hlower) id

/-! ### Skipping -/

/-- The tokens of a statement in front of its semicolon, none of which ends a statement. -/
def Line (ks : List Token.Kind) : Prop := ∀ k ∈ ks, k ≠ .symbol .semicolon ∧ k ≠ .endOfInput

theorem line_append {ks ks' : List Token.Kind} : Line (ks ++ ks') ↔ Line ks ∧ Line ks' :=
  List.forall_mem_append

theorem line_cons {k : Token.Kind} {ks : List Token.Kind} :
    Line (k :: ks) ↔ (k ≠ .symbol .semicolon ∧ k ≠ .endOfInput) ∧ Line ks :=
  List.forall_mem_cons

theorem line_nil : Line [] := by simp [Line]

theorem line_join {ks ks' : List Token.Kind} {mark : Symbol} (h : Line ks) (h' : Line ks')
    (hmark : mark ≠ .semicolon) : Line (ks ++ .symbol mark :: ks') :=
  line_append.mpr ⟨h, line_cons.mpr ⟨by simpa using hmark, h'⟩⟩

/-- Only assignments have a semicolon in them, so an expression without any is all in front of
one. -/
theorem Expr.line_of_pure : ∀ {r : Rung} {e : Expr r}, e.pure = true → Line e.kinds
  | _, .number _, _ => by simp [kinds, line_cons, line_nil]
  | _, .boolean _, _ => by simp [kinds, line_cons, line_nil]
  | _, .name _, _ => by simp [kinds, line_cons, line_nil]
  | _, .factor e, h => line_of_pure (e := e) h
  | _, .product left op right, h => by
    simp only [Expr.pure, Bool.and_eq_true] at h
    exact line_join (line_of_pure h.1) (line_of_pure h.2) (by cases op <;> decide)
  | _, .unsigned e, h => line_of_pure (e := e) h
  | _, .signed sign e, h => by
    exact line_join line_nil (line_of_pure (e := e) h) (by cases sign <;> decide)
  | _, .first e, h => line_of_pure (e := e) h
  | _, .sum left op right, h => by
    simp only [Expr.pure, Bool.and_eq_true] at h
    exact line_join (line_of_pure h.1) (line_of_pure h.2) (by cases op <;> decide)
  | _, .single e, h => line_of_pure (e := e) h
  | _, .comparison left op right, h => by
    simp only [Expr.pure, Bool.and_eq_true] at h
    exact line_join (line_of_pure h.1) (line_of_pure h.2) (by cases op <;> decide)

theorem exists_line_join {ks ks' : List Token.Kind} {mark : Symbol} (h : Line ks)
    (h' : ∃ line, Line line ∧ ks' = line ++ [.symbol .semicolon]) (hmark : mark ≠ .semicolon) :
    ∃ line, Line line ∧ ks ++ .symbol mark :: ks' = line ++ [.symbol .semicolon] := by
  obtain ⟨line, hline, rfl⟩ := h'
  exact ⟨ks ++ .symbol mark :: line, line_join h hline hmark, by simp⟩

/-- The semicolon of an assignment at the end is the end of the expression, and there is no other
one in it. -/
theorem Expr.exists_line : ∀ {r : Rung} {e : Expr r}, e.tidy = true → e.pure = false →
    ∃ line, Line line ∧ e.kinds = line ++ [.symbol .semicolon]
  | _, .assign x value, h, _ => by
    exact ⟨.identifier x :: ([] ++ .symbol .equal :: value.kinds),
      line_cons.mpr ⟨by simp, line_join line_nil (line_of_pure h) (by decide)⟩, rfl⟩
  | _, .factor e, h, hpure => exists_line (e := e) h hpure
  | _, .product left op right, h, hpure => by
    rw [tidy, Bool.and_eq_true] at h
    rw [Expr.pure, h.1, Bool.true_and] at hpure
    exact exists_line_join (line_of_pure h.1) (exists_line h.2 hpure) (by cases op <;> decide)
  | _, .unsigned e, h, hpure => exists_line (e := e) h hpure
  | _, .signed sign e, h, hpure => by
    exact exists_line_join line_nil (exists_line (e := e) h hpure) (by cases sign <;> decide)
  | _, .first e, h, hpure => exists_line (e := e) h hpure
  | _, .sum left op right, h, hpure => by
    rw [tidy, Bool.and_eq_true] at h
    rw [Expr.pure, h.1, Bool.true_and] at hpure
    exact exists_line_join (line_of_pure h.1) (exists_line h.2 hpure) (by cases op <;> decide)
  | _, .single e, h, hpure => exists_line (e := e) h hpure
  | _, .comparison left op right, h, hpure => by
    rw [tidy, Bool.and_eq_true] at h
    rw [Expr.pure, h.1, Bool.true_and] at hpure
    exact exists_line_join (line_of_pure h.1) (exists_line h.2 hpure) (by cases op <;> decide)

/-- An assignment ends with its semicolon, which is read as part of the expression. -/
theorem Expr.kinds_of_isAssign : ∀ {r : Rung} {e : Expr r}, e.isAssign = true →
    ∃ ks, e.kinds = ks ++ [.symbol .semicolon]
  | _, .assign _ _, _ => ⟨_, rfl⟩
  | _, .factor e, h => kinds_of_isAssign (e := e) h
  | _, .unsigned e, h => kinds_of_isAssign (e := e) h
  | _, .first e, h => kinds_of_isAssign (e := e) h
  | _, .single e, h => kinds_of_isAssign (e := e) h

/-- The tokens that are skipped after a mistake: those up to the next semicolon, and the semicolon
with them, or those up to the end of the input. -/
def discard : List Token.Kind → List Token.Kind
  | [] => []
  | k :: ks =>
    if k = .endOfInput then []
    else if k = .symbol .semicolon then [k]
    else k :: discard ks

theorem discard_line {line : List Token.Kind} (h : Line line) (ks : List Token.Kind) :
    discard (line ++ .symbol .semicolon :: ks) = line ++ [.symbol .semicolon] := by
  induction line with
  | nil => rfl
  | cons k line ih =>
    obtain ⟨hk, hline⟩ := line_cons.mp h
    rw [List.cons_append, discard, if_neg hk.2, if_neg hk.1, ih hline, List.cons_append]

/-- What is skipped behind a statement if a mistake is found while `more` of it is left.  As long as
its semicolon is, nothing behind it is skipped. -/
def spill : (more beyond : List Token.Kind) → List Token.Kind
  | [], beyond => discard beyond
  | _ :: _, _ => []

/-- What is skipped behind a statement that consists of the expression, if a mistake is found behind
the expression. -/
def Expr.spill (σ : Site) (beyond : List Token.Kind) {r : Rung} (e : Expr r) : List Token.Kind :=
  if e.spills σ then discard beyond else []

theorem Expr.spill_of_spills {σ : Site} {r : Rung} {e : Expr r} (h : e.spills σ = true)
    (beyond : List Token.Kind) : e.spill σ beyond = discard beyond := if_pos h

theorem Expr.spill_eq_nil {σ : Site} {r : Rung} {e : Expr r} (h : e.spills σ = false)
    (beyond : List Token.Kind) : e.spill σ beyond = [] := by
  rw [spill, h, if_neg (by simp)]

namespace State

/-- The state in which the next item begins, with tokens matching again. -/
def settle (s : State) : State := { s with recovering := false }

theorem settle_of_settled {s : State} (h : s.recovering = false) : s.settle = s := by
  unfold settle
  rw [← h]

section

variable {s : State}

/-- One step of skipping: to the end of the input, over a semicolon, or over another token and
on. -/
theorem skip_rest (h : s.kinds.getLast? = some .endOfInput) :
    s.skip s.rest = if s.lookahead.kind = .endOfInput then s
      else if s.lookahead.kind = .symbol .semicolon then s.advance
      else s.advance.skip s.advance.rest := by
  cases hrest : s.rest with
  | nil =>
    have hend : s.lookahead.kind = .endOfInput := by simpa [kinds, tokens, hrest] using h
    rw [skip, if_pos hend]
  | cons lexeme rest =>
    have hadvance : s.advance = s.lookAt lexeme rest := by simp [advance, hrest]
    rw [skip, hadvance]
    simp only [atEnd, decide_eq_true_eq]
    rfl

/-- What is skipped is passed, and without a scan error there is no report on the way. -/
theorem Ready.skip (h : s.Ready) : s.Passes (discard s.kinds) [] (s.skip s.rest) := by
  generalize hks : s.kinds = ks
  induction ks generalizing s with
  | nil => cases hks
  | cons k ks ih =>
    -- one step for each token, as the tokens to be discarded are told one by one
    have hlook := lookahead_of_kinds hks
    rw [skip_rest h.last, hlook, discard]
    by_cases hend : k = .endOfInput
    · rw [if_pos hend, if_pos hend]
      exact h.passes
    · have hpasses := h.advance (by rwa [hlook])
      rw [hlook] at hpasses
      rw [if_neg hend, if_neg hend]
      by_cases hsemicolon : k = .symbol .semicolon
      · rw [if_pos hsemicolon, if_pos hsemicolon]
        exact hpasses
      · rw [if_neg hsemicolon, if_neg hsemicolon]
        exact hpasses.trans (ih hpasses.ready (hpasses.kinds_eq hks))

/-- An error is reported, and the rest of its statement skipped.  Settled again, the state is ready
to read on. -/
theorem Ready.errorAt (h : s.Ready) (p : Position) (e : ParseError) :
    (s.errorAt p e).recovering = true ∧
      s.Passes (discard s.kinds) [.parse p e] (s.errorAt p e).settle := by
  have hreport : s.Passes [] [.parse p e] (s.report (.parse p e)) :=
    ⟨⟨h.settled, h.quiet, h.last⟩, rfl, rfl, reports_report s _⟩
  have hskip := hreport.trans hreport.ready.skip
  -- no error is being recovered from, so this one is reported
  have herror : s.errorAt p e = (s.report (.parse p e)).recover := by
    unfold State.errorAt
    rw [h.settled]
    rfl
  have hsettle : (s.errorAt p e).settle =
      (s.report (.parse p e)).skip (s.report (.parse p e)).rest := by
    rw [herror]
    exact settle_of_settled hskip.ready.settled
  rw [hsettle, herror]
  exact ⟨rfl, hskip⟩

end

/-! ### Statements with a mistake -/

/-- A mistake has been reported at one of the tokens `ks`.  These have been passed, and the tokens
`gone` behind them, and nothing matches until the next item begins.  Nothing but operations has
been added. -/
structure Trips (s : State) (σ : Site) (o : Outline) (d : Draft) (ks gone : List Token.Kind)
    (s' : State) : Prop where
  recovering : s'.recovering = true
  moves : ∃ (operations : List Operation) (t : Token) (e : ParseError),
    t ∈ s.tokens.take ks.length ∧
      s.Moves σ o d (ks ++ gone) (.plain operations) [.parse t.position e] s'.settle

/-- Of a statement with the tokens `line` in front of its semicolon and `beyond` behind it, the
tokens `ks` have been read and `more` are left.  All is well so far. -/
structure On (s : State) (σ : Site) (o : Outline) (d : Draft)
    (line beyond ks more : List Token.Kind) (code : List Operation) (s₁ : State) : Prop where
  moves : s.Moves σ o d ks (.plain code) [] s₁
  inline : Line line
  whole : ks ++ more = line ++ [.symbol .semicolon]
  left : s₁.kinds = more ++ beyond

/-- A token of the statement stands at the position.  Positions are saved before the tokens behind
them are read. -/
def Saved (s : State) (line : List Token.Kind) (p : Position) : Prop :=
  ∃ t ∈ s.tokens.take (line.length + 1), t.position = p

variable {s s₁ s₂ : State} {σ : Site} {o : Outline} {d : Draft}
  {line beyond ks ks' gone more : List Token.Kind} {code code' : List Operation} {k : Token.Kind}

/-- A statement lies ahead, and nothing of it has been read. -/
theorem At.on (h : s.At σ o d) (hline : Line line) (hwhole : more = line ++ [.symbol .semicolon])
    (hkinds : s.kinds = more ++ beyond) : s.On σ o d line beyond [] more [] s :=
  ⟨h.moves, hline, hwhole, hkinds⟩

/-- More of the statement is read, and all is well after that too. -/
theorem On.step (h : s.On σ o d line beyond ks (ks' ++ more) code s₁)
    (h' : s.Moves σ o d (ks ++ ks') (.plain code') [] s₂) :
    s.On σ o d line beyond (ks ++ ks') more code' s₂ := by
  have hkinds := h.moves.passes.kinds
  rw [h.left, List.append_assoc, ← List.append_assoc] at hkinds
  exact ⟨h', h.inline, by rw [← h.whole, List.append_assoc], h'.passes.kinds_eq hkinds⟩

theorem On.lookahead (h : s.On σ o d line beyond ks (k :: more) code s₁) :
    s₁.lookahead.kind = k := lookahead_of_kinds h.left

theorem On.valued (h : s.On σ o d line beyond ks more code s₁) : σ.Valued := by
  have hvalued := h.moves.here.valued
  rw [Site.past_plain] at hvalued
  exact hvalued

/-- What has been read since then is no longer ahead, which is what the budget is for. -/
theorem On.length_tokens {more' : List Token.Kind} (h : s.On σ o d line beyond ks more code s₁)
    (h' : s.On σ o d line beyond (ks ++ ks') more' code' s₂) :
    s₁.tokens.length = ks'.length + s₂.tokens.length := by
  have hlength := h.moves.passes.length_tokens
  have hlength' := h'.moves.passes.length_tokens
  rw [List.length_append] at hlength'
  omega

/-- The token ahead belongs to the statement, as long as something is left of it. -/
theorem On.saved (h : s.On σ o d line beyond ks (k :: more) code s₁) :
    s.Saved line s₁.lookahead.position := by
  refine ⟨s₁.lookahead, ?_, rfl⟩
  have hlength := congrArg List.length h.whole
  simp only [List.length_append, List.length_cons, List.length_nil] at hlength
  -- the token ahead is behind those that have been read, and in front of the end of the statement
  have hsplit : line.length + 1 = ks.length + (more.length + 1) := by omega
  rw [hsplit, List.take_add, ← h.moves.passes.tokens]
  exact List.mem_append_right _ List.mem_cons_self

/-- What is left of the statement ends with its semicolon, and has no other one. -/
theorem On.exists_more (h : s.On σ o d line beyond ks (k :: more) code s₁) :
    ∃ init, Line init ∧ k :: more = init ++ [.symbol .semicolon] := by
  obtain ⟨init, last, hlast⟩ := (List.eq_nil_or_concat (k :: more)).resolve_left (by simp)
  rw [List.concat_eq_append] at hlast
  have hwhole := h.whole
  rw [hlast, ← List.append_assoc] at hwhole
  obtain ⟨rfl, hsemicolon⟩ := List.append_inj' hwhole rfl
  exact ⟨init, (line_append.mp h.inline).2, by rw [hlast, hsemicolon]⟩

/-- There is something behind the statement, at least the end of the input. -/
theorem On.exists_beyond (h : s.On σ o d line beyond ks more code s₁) :
    ∃ k rest, beyond = k :: rest := by
  cases beyond with
  | cons k rest => exact ⟨k, rest, rfl⟩
  | nil =>
    have hleft := h.left
    rw [List.append_nil] at hleft
    subst hleft
    obtain ⟨init, -, hsemicolon⟩ := h.exists_more
    have hlast := h.moves.here.ready.last
    rw [show s₁.kinds = _ from hsemicolon] at hlast
    simp at hlast

/-- **An error in a statement skips the rest of it**, and if nothing is left of the statement, what
follows it. -/
theorem On.errorAt (h : s.On σ o d line beyond ks more code s₁) {p : Position}
    (hp : s.Saved line p) (e : ParseError) :
    s.Trips σ o d (line ++ [.symbol .semicolon]) (OnePass.spill more beyond) (s₁.errorAt p e) := by
  obtain ⟨t, ht, rfl⟩ := hp
  -- what has been read and what is skipped are the statement, and what is skipped behind it
  have hgone : ks ++ discard s₁.kinds =
      line ++ [.symbol .semicolon] ++ OnePass.spill more beyond := by
    rw [h.left]
    cases more with
    -- the semicolon of the statement has been read, and the next one is not its own
    | nil => rw [← h.whole, List.append_nil, List.nil_append, OnePass.spill]
    | cons k more =>
      obtain ⟨init, hinit, hmore⟩ := h.exists_more
      rw [OnePass.spill, List.append_nil, ← h.whole, hmore, List.append_assoc,
        List.singleton_append, discard_line hinit]
  obtain ⟨hrecovering, hpasses⟩ := h.moves.here.ready.errorAt t.position e
  have hsame : s₁.Same (s₁.errorAt t.position e).settle :=
    (Same.errorAt s₁ _ _).trans ⟨rfl, rfl, rfl, rfl⟩
  refine ⟨hrecovering, code, t, e, by simpa using ht, ?_⟩
  rw [← hgone]
  exact h.moves.of_same hsame hpasses

/-- What is reported afterwards is suppressed, so the first error of a statement is the only one. -/
theorem Trips.errorAt (h : s.Trips σ o d ks gone s₁) (p : Position) (e : ParseError) :
    s.Trips σ o d ks gone (s₁.errorAt p e) := by
  obtain ⟨operations, t, e', ht, hmoves⟩ := h.moves
  have hready := hmoves.here.ready
  have herror : s₁.errorAt p e = { s₁ with log := s₁.log.push (.suppressed p e) } := by
    unfold State.errorAt
    rw [if_pos h.recovering]
  rw [herror]
  refine ⟨h.recovering, operations, t, e', ht, ?_⟩
  have hpasses : s₁.settle.Passes [] []
      (settle { s₁ with log := s₁.log.push (.suppressed p e) }) :=
    ⟨⟨rfl, hready.quiet, hready.last⟩, rfl, rfl, (List.append_nil _).symm⟩
  have hsame : s₁.settle.Same (settle { s₁ with log := s₁.log.push (.suppressed p e) }) :=
    ⟨rfl, rfl, rfl, rfl⟩
  have hgoes := hmoves.of_same hsame hpasses
  rwa [List.append_nil, List.append_nil] at hgoes

section

variable {r : Rung} {e : Expr r} (h : s.On σ o d line beyond ks (e.kinds ++ more) code s₁)
include h

/-- Something is left of the statement behind an expression without assignments: its semicolon at
least. -/
theorem On.exists_next (hpure : e.pure = true) : ∃ k more', more = k :: more' := by
  cases more with
  | cons k more => exact ⟨k, more, rfl⟩
  | nil =>
    obtain ⟨k, ks', hks', -⟩ := e.kinds_eq_cons
    rw [List.append_nil, hks'] at h
    obtain ⟨init, -, hsemicolon⟩ := h.exists_more
    have hline := Expr.line_of_pure hpure
    rw [hks', hsemicolon] at hline
    exact absurd rfl (line_cons.mp (line_append.mp hline).2).1.1

/-- Nothing is left of the statement behind an assignment, which has read the semicolon. -/
theorem On.more_eq_nil (hassign : e.isAssign = true) : more = [] := by
  refine (List.eq_nil_or_concat more).resolve_right ?_
  rintro ⟨init, last, rfl⟩
  obtain ⟨ks', hks'⟩ := Expr.kinds_of_isAssign hassign
  have hwhole := h.whole
  rw [List.concat_eq_append, hks', ← List.append_assoc, ← List.append_assoc] at hwhole
  obtain ⟨rfl, -⟩ := List.append_inj' hwhole rfl
  exact (h.inline (.symbol .semicolon) (by simp)).1 rfl

/-- A mistake that is found behind an expression that means something skips what the tree of the
expression tells. -/
theorem On.spill_eq (htidy : e.Tidy σ.options.typing) {ty : Ty} {c : List Operation}
    (hlower : e.lower? σ = some (ty, c)) : OnePass.spill more beyond = e.spill σ beyond := by
  -- either the semicolon of the statement is still ahead, or the assignment has read it
  rcases htidy.pure_or_isAssign h.valued hlower with hpure | hassign
  · obtain ⟨k, more', rfl⟩ := h.exists_next hpure
    rw [Expr.spill_eq_nil (Expr.spills_of_pure σ hpure), OnePass.spill]
  · obtain rfl := h.more_eq_nil hassign
    rw [Expr.spill_of_spills (by rw [Expr.spills_of_isAssign σ hassign, hlower]; rfl),
      OnePass.spill]

end

end State

end OnePass
