import Mathlib.Data.List.Chain
import OnePass.Proofs.Unbroken

/-!
# One report per mistake

After an error the rest of its statement is skipped, and no further error is reported until
the next item of a statement list begins.  So between two errors there is a semicolon,
unless the second one stands at the end of the input.

An error is not always reported at the token ahead: many productions save a position, read
on, and report an error there afterwards.  As long as no item has begun in between, this
does no harm.  If an error has been reported since then, the new one is not; and if none
has, the saved position is still behind a semicolon.  A production that reads whole items
reports nothing at the positions saved before.

## Main definitions

* `IsPlace`, `IsEnd` — a token, or the end of the input, stands at a position.
* `MayFollow` — an error may be reported at a position after one at another.
* `Ascends` — a position stands behind another one, or both at the end of the input.
* `State.parseErrors` — where errors of the grammar have been reported.
* `State.Spread` — these errors follow each other.
* `State.Usable` — an error may still be reported at a saved position.
* `Production.Flat`, `Production.Spreads` — productions that begin no item, and all of them.

## Main results

* `State.Spread.errorAt` — an error at a position that is usable.
* `Production.flat_naming`, `Production.flat_declaring` — saved positions stay usable.
* `Production.spreads_statements` — errors follow each other in every production.
* `parse_errors_follow` — **there is a semicolon between two errors**, and they come in order.
-/

namespace OnePass

/-! ### Places in a source -/

/-- A token of the source stands there.  The end of the input counts as one. -/
def IsPlace (source : String) (p : Position) : Prop :=
  ∃ t ∈ sourceTokens source, t.position = p

/-- The input ends there. -/
def IsEnd (source : String) (p : Position) : Prop :=
  ∃ t ∈ sourceTokens source, t.kind = .endOfInput ∧ t.position = p

/-- An error may be reported at `q` after one at `p`: the input ends at `q`, or a semicolon
stands at `p` or behind it, and before `q`. -/
def MayFollow (source : String) (p q : Position) : Prop :=
  IsEnd source q ∨ ∃ t ∈ sourceTokens source,
    t.kind = .symbol .semicolon ∧ p ≤ t.position ∧ t.position < q

/-- The second position stands behind the first one, unless both are the end of the input. -/
def Ascends (source : String) (p q : Position) : Prop := p ≤ q ∧ (p < q ∨ IsEnd source q)

section

variable {source : String} {p q q' : Position}

/-- No token stands behind the end of the input, which is the last one. -/
theorem IsEnd.le (h : IsEnd source p) (hq : IsPlace source q) : q ≤ p := by
  obtain ⟨front, e, htokens, hfront⟩ := sourceTokens_eq source
  have hpairwise := pairwise_sourceTokens source
  obtain ⟨t, ht, hkind, rfl⟩ := h
  obtain ⟨u, hu, rfl⟩ := hq
  -- the end of the input is the last token, so any other one stands before it
  rw [htokens] at ht hu hpairwise
  rcases List.mem_append.mp ht with ht | ht
  · exact absurd hkind (hfront t ht)
  rcases List.mem_append.mp hu with hu | hu
  · exact ((List.pairwise_append.mp hpairwise).2.2 u hu t ht).le
  · rw [List.mem_singleton.mp ht, List.mem_singleton.mp hu]

theorem MayFollow.mono (h : MayFollow source p q) (hle : q ≤ q') (hq' : IsPlace source q') :
    MayFollow source p q' := by
  rcases h with hend | ⟨t, ht, hkind, hp, hq⟩
  · -- at the end of the input there is nowhere to move on to
    have heq : q = q' := le_antisymm hle (hend.le hq')
    exact .inl (heq ▸ hend)
  · exact .inr ⟨t, ht, hkind, hp, hq.trans_le hle⟩

theorem MayFollow.ascends (h : MayFollow source p q) (hp : IsPlace source p) :
    Ascends source p q := by
  rcases h with hend | ⟨t, -, -, hle, hlt⟩
  · exact ⟨hend.le hp, .inr hend⟩
  · have hlt := hle.trans_lt hlt
    exact ⟨hlt.le, .inl hlt⟩

instance : Trans (Ascends source) (Ascends source) (Ascends source) where
  trans {p q r} hpq hqr := by
    refine ⟨hpq.1.trans hqr.1, ?_⟩
    rcases hqr.2 with hlt | hend
    · exact .inl (hpq.1.trans_lt hlt)
    · exact .inr hend

end

/-! ### Errors so far -/

/-- Where an error of the grammar is reported.  Scan errors are reported as the tokens behind them
are reached, and are not suppressed. -/
def Diagnostic.parsePosition? : Diagnostic → Option Position
  | .scan _ => none
  | .parse p _ => some p
  | .warning _ _ => none

namespace State

/-- Where errors of the grammar have been reported, the first one first. -/
def parseErrors (s : State) : List Position := s.reports.filterMap Diagnostic.parsePosition?

/-- The second state is reached from the first one without an error of the grammar, though tokens
may be passed. -/
structure Glides (s s' : State) : Prop where
  leads : s.Leads s'
  errors : s'.parseErrors = s.parseErrors

namespace Glides

variable {s s₁ s₂ : State}

theorem of_eq {s' : State} (hl : s'.lookahead = s.lookahead) (hr : s'.rest = s.rest)
    (hd : s'.diagnostics = s.diagnostics) : s.Glides s' :=
  ⟨.of_eq hl hr hd, by rw [parseErrors, parseErrors, reports, reports, hd]⟩

theorem refl (s : State) : s.Glides s := of_eq rfl rfl rfl

theorem trans (h : s.Glides s₁) (h' : s₁.Glides s₂) : s.Glides s₂ :=
  ⟨h.leads.trans h'.leads, h'.errors.trans h.errors⟩

theorem warn (s : State) (p : Position) (w : Warning) : s.Glides (s.report (.warning p w)) := by
  refine ⟨.report s rfl, ?_⟩
  rw [parseErrors, reports_report, List.filterMap_append]
  exact List.append_nil _

theorem lookAt {lexeme : Lexeme} {rest : List Lexeme} (h : s.rest = lexeme :: rest) :
    s.Glides (s.lookAt lexeme rest) := by
  refine ⟨.lookAt h, ?_⟩
  have hscan : (lexeme.errors.map Diagnostic.scan).filterMap Diagnostic.parsePosition? = [] := by
    simp [Diagnostic.parsePosition?]
  rw [parseErrors, reports_lookAt, List.filterMap_append, hscan, List.append_nil]
  rfl

theorem forward : Forward Glides where
  refl := refl
  trans := trans
  lookAt := lookAt
  touch _ _ _ := of_eq rfl rfl rfl

theorem advance (s : State) : s.Glides s.advance := forward.advance s

theorem recover (s : State) : s.Glides s.recover := forward.recover s

end Glides

/-- The errors so far stand at tokens and follow each other, and one may follow at the token
ahead. -/
structure Spread (source : String) (s : State) : Prop where
  tokens : s.tokens <:+ sourceTokens source
  places : ∀ p ∈ s.parseErrors, IsPlace source p
  chain : s.parseErrors.IsChain (MayFollow source)
  ahead : ∀ p ∈ s.parseErrors.getLast?, MayFollow source p s.lookahead.position

/-- Nothing is reported now, or an error may be reported at a position not behind the token
ahead. -/
def Usable (source : String) (s : State) (q : Position) : Prop :=
  s.recovering = true ∨ IsPlace source q ∧ q ≤ s.lookahead.position ∧
    ∀ p ∈ s.parseErrors.getLast?, MayFollow source p q

section

variable {source : String} {s s' : State} {q : Position}

theorem isPlace_lookahead (h : s.tokens <:+ sourceTokens source) :
    IsPlace source s.lookahead.position :=
  ⟨s.lookahead, h.subset List.mem_cons_self, rfl⟩

/-- The token ahead moves on: tokens stand at increasing positions, and none is gone back to. -/
theorem Leads.position_le (h : s.Leads s') (hs : s.tokens <:+ sourceTokens source) :
    s.lookahead.position ≤ s'.lookahead.position := by
  have hpairwise := (pairwise_sourceTokens source).sublist hs.sublist
  obtain ⟨front, hfront⟩ := h.tokens_suffix
  cases front with
  | nil =>
    have hhead : s'.lookahead = s.lookahead := (List.cons.inj hfront).1
    rw [hhead]
  | cons t front =>
    obtain ⟨rfl, hrest⟩ := List.cons.inj hfront
    have hmem : s'.lookahead ∈ s.rest.map Lexeme.token := by
      rw [← hrest]
      exact List.mem_append_right _ List.mem_cons_self
    exact ((List.pairwise_cons.mp hpairwise).1 _ hmem).le

/-- Skipping ends behind a semicolon or at the end of the input, so that an error may follow
there. -/
theorem mayFollow_skip {rest : List Lexeme} (hrest : s.rest = rest)
    (hs : s.tokens <:+ sourceTokens source) (hq : q ≤ s.lookahead.position) :
    MayFollow source q (s.skip rest).lookahead.position := by
  induction rest generalizing s with
  | nil =>
    -- only the end of the input is left
    obtain ⟨front, e, htokens, -⟩ := sourceTokens_eq source
    have hlast : (sourceTokens source).getLast? = s.tokens.getLast? := by
      obtain ⟨passed, hpassed⟩ := hs
      rw [← hpassed, List.getLast?_append, Option.or_of_isSome]
      simp [State.tokens]
    rw [htokens, List.getLast?_concat, State.tokens, hrest, List.map_nil,
      List.getLast?_singleton] at hlast
    refine .inl ⟨s.lookahead, hs.subset List.mem_cons_self, ?_, rfl⟩
    rw [← Option.some.inj hlast]
  | cons lexeme rest ih =>
    -- each step is over a token, or ends the skipping
    have hleads : s.Leads (s.lookAt lexeme rest) := .lookAt hrest
    have hpairwise := (pairwise_sourceTokens source).sublist hs.sublist
    have hlt : s.lookahead.position < lexeme.token.position := by
      rw [State.tokens, hrest] at hpairwise
      exact (List.pairwise_cons.mp hpairwise).1 _ List.mem_cons_self
    unfold State.skip
    split
    · next hend =>
      exact .inl ⟨s.lookahead, hs.subset List.mem_cons_self, of_decide_eq_true hend, rfl⟩
    split
    · next hsemicolon =>
      exact .inr ⟨s.lookahead, hs.subset List.mem_cons_self, hsemicolon, hq, hlt⟩
    · exact ih rfl (hleads.tokens_suffix.trans hs) (hq.trans hlt.le)

theorem Spread.glides (hs : s.Spread source) (h : s.Glides s') : s'.Spread source := by
  have htokens := h.leads.tokens_suffix.trans hs.tokens
  refine ⟨htokens, ?_, ?_, ?_⟩
  · rw [h.errors]
    exact hs.places
  · rw [h.errors]
    exact hs.chain
  · intro p hp
    rw [h.errors] at hp
    exact (hs.ahead p hp).mono (h.leads.position_le hs.tokens) (isPlace_lookahead htokens)

theorem Usable.glides (hq : s.Usable source q) (hs : s.Spread source) (h : s.Glides s')
    (hrecovering : s'.recovering = s.recovering) : s'.Usable source q := by
  rcases hq with hq | ⟨hplace, hle, hfollow⟩
  · exact .inl (hrecovering.trans hq)
  · refine .inr ⟨hplace, hle.trans (h.leads.position_le hs.tokens), ?_⟩
    rw [h.errors]
    exact hfollow

/-- An error may be reported at the token ahead, which is the latest position there is. -/
theorem Spread.usable (hs : s.Spread source) : s.Usable source s.lookahead.position :=
  .inr ⟨isPlace_lookahead hs.tokens, le_rfl, hs.ahead⟩

/-- A report at a position where one may be made, and the skip after it.  The skip is why another
error may follow. -/
theorem Spread.report (hs : s.Spread source) (hplace : IsPlace source q)
    (hle : q ≤ s.lookahead.position) (hfollow : ∀ p ∈ s.parseErrors.getLast?, MayFollow source p q)
    (e : ParseError) : ((s.report (.parse q e)).recover).Spread source := by
  -- skipping reports no error of the grammar itself
  have hglides := Glides.recover (s.report (.parse q e))
  have herrors : (s.report (.parse q e)).recover.parseErrors = s.parseErrors ++ [q] := by
    rw [hglides.errors, parseErrors, reports_report, List.filterMap_append]
    rfl
  have hleads : s.Leads (s.report (.parse q e)).recover := (Leads.report s rfl).trans hglides.leads
  refine ⟨hleads.tokens_suffix.trans hs.tokens, ?_, ?_, ?_⟩
  · rw [herrors]
    intro p hp
    rcases List.mem_append.mp hp with hp | hp
    · exact hs.places p hp
    · exact List.mem_singleton.mp hp ▸ hplace
  · rw [herrors, List.isChain_append]
    refine ⟨hs.chain, List.isChain_singleton q, fun p hp r hr => ?_⟩
    obtain rfl : q = r := Option.some.inj hr
    exact hfollow p hp
  · rw [herrors, List.getLast?_concat]
    intro p hp
    obtain rfl : q = p := Option.some.inj hp
    exact mayFollow_skip rfl hs.tokens hle

/-- **An error at a position that is usable.**  While an error is being recovered from, it is not
reported at all. -/
theorem Spread.errorAt (hs : s.Spread source) (hq : s.Usable source q) (e : ParseError) :
    (s.errorAt q e).Spread source := by
  unfold State.errorAt
  split
  · -- the error is suppressed
    exact hs.glides (.of_eq rfl rfl rfl)
  · next hrecovering =>
    rcases hq with hq | ⟨hplace, hle, hfollow⟩
    · exact absurd hq hrecovering
    · exact hs.report hplace hle hfollow e

theorem Spread.skipUnexpected (hs : s.Spread source) : s.skipUnexpected.Spread source := by
  unfold State.skipUnexpected
  split
  · exact hs.glides (.recover s)
  · exact hs.report (isPlace_lookahead hs.tokens) le_rfl hs.ahead _

end

end State

namespace Production

variable {α β : Type} {source : String} {ps : List Position}

/-! ### Productions that begin no item -/

/-- Errors at the positions `ps` do no harm in the production, and every position that is usable
before it is so after it. -/
structure Flat (source : String) (ps : List Position) (p : Production α) : Prop where
  ends : ∀ s : State, s.Spread source → (∀ q ∈ ps, s.Usable source q) →
    Ends p s (fun _ s' => s'.Spread source ∧ ∀ q, s.Usable source q → s'.Usable source q)
      fun _ s' => s'.Spread source

/-- A production that reports nothing, and neither begins nor ends the recovery from an error. -/
theorem flat_of_glides {p : Production α} (h : ∀ s : State,
    Ends p s (fun _ s' => s.Glides s' ∧ s'.recovering = s.recovering) fun _ s' => s.Glides s') :
    Flat source ps p := by
  constructor
  intro s hs _
  refine (h s).mono ?_ fun _ s' hglides => hs.glides hglides
  intro _ s' ⟨hglides, hrecovering⟩
  exact ⟨hs.glides hglides, fun q hq => hq.glides hs hglides hrecovering⟩

/-- What leaves tokens, reports and recovery alone, such as requests and declarations. -/
theorem flat_of_same {p : Production α} (h : ∀ s : State,
    Ends p s (fun _ s' => s'.lookahead = s.lookahead ∧ s'.rest = s.rest ∧
      s'.diagnostics = s.diagnostics ∧ s'.recovering = s.recovering)
      fun _ s' => s'.lookahead = s.lookahead ∧ s'.rest = s.rest ∧
        s'.diagnostics = s.diagnostics) : Flat source ps p := by
  apply flat_of_glides
  intro s
  refine (h s).mono ?_ ?_
  · intro _ s' ⟨hl, hr, hd, hrecovering⟩
    exact ⟨.of_eq hl hr hd, hrecovering⟩
  · intro _ s' ⟨hl, hr, hd⟩
    exact .of_eq hl hr hd

theorem flat_assemble (c : Assembler.Call) : Flat source ps (assemble c) :=
  flat_of_same fun _ =>
    ends_assemble (fun _ _ _ => ⟨rfl, rfl, rfl, rfl⟩) fun _ _ _ => ⟨rfl, rfl, rfl⟩

theorem flat_scope (c : Scopes.Call) : Flat source ps (scope c) :=
  flat_of_same fun _ =>
    ends_scope (fun _ _ _ => ⟨rfl, rfl, rfl, rfl⟩) fun _ _ _ => ⟨rfl, rfl, rfl⟩

/-- An error at a position that is usable.  After it nothing is reported, so that every position is
usable. -/
theorem flat_errorAt_of {p : Production Unit} (place : State → Position) (e : ParseError)
    (heq : ∀ s, p s = .ok () (s.errorAt (place s) e))
    (husable : ∀ s : State, s.Spread source → (∀ q ∈ ps, s.Usable source q) →
      s.Usable source (place s)) : Flat source ps p := by
  constructor
  intro s hs hps
  refine ends_of_ok (heq s) ⟨hs.errorAt (husable s hs hps) e, fun q _ => ?_⟩
  -- an error is being recovered from, now or already
  exact .inl (State.recovering_errorAt s _ e)

theorem Flat.bind {p : Production α} {f : α → Production β} (hp : Flat source ps p)
    (hf : ∀ a, Flat source ps (f a)) : Flat source ps (p >>= f) := by
  constructor
  intro s hs hps
  refine (hp.ends s hs hps).bind fun a s₁ h₁ => ?_
  refine ((hf a).ends s₁ h₁.1 fun q hq => h₁.2 q (hps q hq)).mono ?_ fun _ _ h => h
  intro b s₂ h₂
  exact ⟨h₂.1, fun q hq => h₂.2 q (h₁.2 q hq)⟩

theorem flat_sequential (source : String) (ps : List Position) :
    Sequential fun _ p => Flat source ps p where
  pure _ := flat_of_same fun _ => ⟨rfl, rfl, rfl, rfl⟩
  bind := Flat.bind
  view _ := flat_of_same fun _ => ⟨rfl, rfl, rfl, rfl⟩
  accept? select := by
    apply flat_of_glides
    intro s
    exact ends_accept? (fun _ _ => ⟨.advance s, s.recovering_advance⟩) fun _ => ⟨.refl s, rfl⟩
  accept kind := by
    apply flat_of_glides
    intro s
    exact ends_accept (fun _ => ⟨.advance s, s.recovering_advance⟩) fun _ => ⟨.refl s, rfl⟩
  error e :=
    flat_errorAt_of (fun s => s.lookahead.position) e (fun _ => rfl) fun _ hs _ => hs.usable
  emit _ := flat_assemble _
  returnType := flat_assemble _

theorem flat_placed (source : String) : Placed fun ps _ p => Flat source ps p where
  sequential := flat_sequential source
  position {ps β f} hf := by
    constructor
    intro s hs hps
    -- the position is that of the token ahead, which is usable
    refine (hf s.lookahead.position).ends s hs ?_
    exact List.forall_mem_cons.mpr ⟨hs.usable, hps⟩
  errorAt {ps p} hp e := flat_errorAt_of (fun _ => p) e (fun _ => rfl) fun _ _ hps => hps p hp

/-- Saved positions stay usable in every expression, since no item begins in one. -/
theorem flat_naming (source : String) : Naming fun ps _ p => Flat source ps p where
  toPlaced := flat_placed source
  quiet c _ := flat_assemble c
  note _ := flat_of_same fun _ => ⟨rfl, rfl, rfl, rfl⟩

/-- Saved positions stay usable in the declarations of fields and parameters, which are no items of
their own. -/
theorem flat_declaring (source : String) : Declaring fun ps _ p => Flat source ps p where
  toPlaced := flat_placed source
  declareLocal name ty :=
    (flat_assemble _).bind fun slot => (flat_scope (.declareLocal name ty slot)).bind fun _ =>
      (flat_sequential source _).pure ()
  declareParameter _ _ _ := flat_scope _
  broken _ := flat_of_same fun _ => ⟨rfl, rfl, rfl⟩

/-! ### All productions -/

/-- Errors at the positions `ps` do no harm in the production.  It may leave them unusable. -/
structure Spreads (source : String) (ps : List Position) (p : Production α) : Prop where
  ends : ∀ s : State, s.Spread source → (∀ q ∈ ps, s.Usable source q) →
    Ends p s (fun _ s' => s'.Spread source) fun _ s' => s'.Spread source

theorem Flat.spreads {p : Production α} (hp : Flat source ps p) : Spreads source ps p := by
  constructor
  intro s hs hps
  exact (hp.ends s hs hps).mono (fun _ _ h => h.1) fun _ _ h => h

/-- Saved positions need not be used, so a production that uses none can stand behind any. -/
theorem Spreads.unused {p : Production α} (hp : Spreads source [] p) : Spreads source ps p :=
  ⟨fun s hs _ => hp.ends s hs (List.forall_mem_nil _)⟩

/-- Only before the first item is read may saved positions be used, so the rest of the production
comes last. -/
theorem Flat.then {p : Production α} {f : α → Production β} (hp : Flat source ps p)
    (hf : ∀ a, Spreads source ps (f a)) : Spreads source ps (p >>= f) := by
  constructor
  intro s hs hps
  refine (hp.ends s hs hps).bind fun a s₁ h₁ => ?_
  exact (hf a).ends s₁ h₁.1 fun q hq => h₁.2 q (hps q hq)

/-- A position may be used as soon as it is saved, because it is that of the token ahead. -/
theorem spreads_position {f : Position → Production β} (hf : ∀ p, Spreads source (p :: ps) (f p)) :
    Spreads source ps (position >>= f) := by
  constructor
  intro s hs hps
  exact (hf s.lookahead.position).ends s hs (List.forall_mem_cons.mpr ⟨hs.usable, hps⟩)

theorem Spreads.bind {p : Production α} {f : α → Production β} (hp : Spreads source [] p)
    (hf : ∀ a, Spreads source [] (f a)) : Spreads source [] (p >>= f) := by
  constructor
  intro s hs hps
  refine (hp.ends s hs hps).bind fun a s₁ h₁ => ?_
  exact (hf a).ends s₁ h₁ (List.forall_mem_nil _)

/-- A change that leaves tokens and reports alone.  It may end the recovery from an error. -/
theorem spreads_modify {g : State → State} (h : ∀ s : State, s.Glides (g s)) :
    Spreads source [] (modify g) :=
  ⟨fun s hs _ => hs.glides (h s)⟩

theorem spreads_nesting (source : String) : Nesting fun _ p => Spreads source [] p where
  pure a := ((flat_sequential source []).pure a).spreads
  bind := Spreads.bind
  view g := ((flat_sequential source []).view g).spreads
  accept? select := ((flat_sequential source []).accept? select).spreads
  accept kind := ((flat_sequential source []).accept kind).spreads
  error e := ((flat_sequential source []).error e).spreads
  warn p w := ⟨fun s hs _ => hs.glides (.warn s p w)⟩
  emit _ := (flat_assemble _).spreads
  returnType := (flat_assemble _).spreads
  label c _ := (flat_assemble c).spreads
  halt _ := ⟨fun _ hs _ => hs⟩
  ensuring {α p last} hp hlast := by
    constructor
    intro s hs hps
    refine Ends.ensuring ((hp.ends s hs hps).mono ?_ ?_)
    · exact fun _ s₁ h₁ => hlast.ends s₁ h₁ (List.forall_mem_nil _)
    · exact fun _ s₁ h₁ => hlast.ends s₁ h₁ (List.forall_mem_nil _)
  touch {g} hg := by
    apply spreads_modify
    intro s
    obtain ⟨loops, recovering, log, h⟩ := hg s
    rw [h]
    exact .of_eq rfl rfl rfl
  skipUnexpected := ⟨fun _ hs _ => hs.skipUnexpected⟩
  adjust {g} hg := by
    apply spreads_modify
    intro s
    obtain ⟨loops, methods, recovering, log, h⟩ := hg s
    rw [h]
    exact .of_eq rfl rfl rfl
  assemble c := (flat_assemble c).spreads
  scope c := (flat_scope c).spreads

/-- The position of the name is used before the items of a method are read.  This is the only
production that saves a position and reads items behind it. -/
theorem spreads_declarationForm {item : Production Bool} (hi : Spreads source [] item)
    (budget : Nat) : Spreads source [] (declarationForm budget item) := by
  have hC := spreads_nesting source
  have hD := flat_declaring source
  refine hC.bind (hC.accept? _) fun ty => ?_
  cases ty with
  | none => exact hC.pure false
  | some ty =>
    refine hC.bind (spreads_position fun p => ?_) fun _ => hC.pure true
    have hF := flat_sequential source [p]
    have hp : p ∈ [p] := List.mem_singleton_self p
    refine (hF.accept? _).then fun name => ?_
    cases name with
    | none => exact (hF.error _).spreads
    | some name =>
      refine (hF.accept _).then fun _ =>
        mem_ite (C := fun _ p' => Spreads source [p] p') ?_ (hD.field hp ty name).spreads
      -- the name is checked first, and from then on the position is not used
      refine (hD.checkFresh hp _ name).then fun _ => ?_
      refine (flat_scope (.declareMethod name ty)).then fun entity => ?_
      exact (hC.enclosing.inScopeOf hi budget (hD.formals budget #[] []).spreads entity ty
        name).unused

/-- Errors follow each other in every production, whatever positions it saves. -/
theorem spreads_statements (options : Options) (source : String) :
    Statements options fun _ p => Spreads source [] p where
  toSequential := (spreads_nesting source).toSequential
  bugStatement := (spreads_nesting source).toSequential.bugStatement (spreads_nesting source).warn
  expression budget := (((flat_naming source).expressions options).expression budget []).spreads
  printStatement := (((flat_naming source).expressions options).printStatement []).spreads
  returnStatement budget := by
    have hE := (flat_naming source).expressions options
    refine (spreads_nesting source).returnOf fun expected => ?_
    exact (hE.returnValue (hE.expression budget) [] expected).spreads
  conditional hs budget := by
    have hE := (flat_naming source).expressions options
    exact (spreads_nesting source).branching.conditionalOf
      (hE.condition (hE.expression budget) []).spreads hs
  loop hs budget := by
    have hE := (flat_naming source).expressions options
    exact (spreads_nesting source).branching.loopOf
      (hE.condition (hE.expression budget) []).spreads hs
  leaveBreak _ := (spreads_nesting source).leaveStatement _ _ _
  leaveContinue _ := (spreads_nesting source).leaveStatement _ _ _
  declarationForm := spreads_declarationForm
  settle := spreads_modify fun _ => .of_eq rfl rfl rfl
  skipUnexpected := (spreads_nesting source).skipUnexpected

end Production

/-! ### Whole passes -/

open Production

theorem begunState_spread (source : String) (assembler : Assembler) (log : Array Event) :
    (begunState source assembler log).Spread source := by
  have htokens : (begunState source assembler log).tokens = sourceTokens source :=
    State.tokens_advance_start source
  have herrors : (begunState source assembler log).parseErrors = [] :=
    (State.Glides.advance (.start (lexemes source))).errors
  refine ⟨htokens ▸ List.suffix_refl _, ?_, ?_, ?_⟩
  · rw [herrors]
    exact List.forall_mem_nil _
  · rw [herrors]
    exact List.isChain_nil
  · rw [herrors]
    exact fun p hp => by cases hp

/-- **There is a semicolon between two errors.**  Whatever the outcome of a pass, its errors of the
grammar are reported at tokens of the source or at its end.  If one of them comes right after
another, it stands at the end, or a semicolon stands at the first one or behind it, and before
the second one.  So they come in the order of the source, each behind the one before unless it
stands at the end. -/
theorem parse_errors_follow (options : Options) (source : String) :
    (∀ p ∈ (parse options source).state.parseErrors, IsPlace source p) ∧
    (parse options source).state.parseErrors.IsChain (MayFollow source) ∧
    (parse options source).state.parseErrors.Pairwise (Ascends source) := by
  obtain ⟨assembler, log, -, hparse⟩ := parse_of_items options source
  -- a pass is that of its statement list, which begins with no errors
  have hitems := ((spreads_statements options source).items (lexemes source).length
    (lexemes source).length).ends _ (begunState_spread source assembler log) (List.forall_mem_nil _)
  have hspread : (parse options source).state.Spread source := by
    obtain ⟨hok, herror⟩ := hparse (Q := fun s => s.Spread source) hitems
    cases houtcome : (parse options source).outcome with
    | ok matched => exact hok matched houtcome
    | error halt => exact herror halt houtcome
  refine ⟨hspread.places, hspread.chain, List.IsChain.pairwise ?_⟩
  -- errors that follow each other one by one are in order altogether
  exact hspread.chain.imp_of_mem_imp fun p q hp _ hfollow => hfollow.ascends (hspread.places p hp)

end OnePass
