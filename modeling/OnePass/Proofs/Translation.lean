import OnePass.Proofs.Declarations

/-!
# Sources and their programs

The pass over a source computes the reference translation.  A source gives a program
exactly if it is read without scan errors into the tokens of a tree that stands for a
program, and nothing in that tree is followed by something that would have been read
with it.  The program is the one the tree stands for, and the reports are the warnings
of the tree.

## Main definitions

* `Writes` — a source is read into the tokens of a tree.

## Main results

* `Production.items_goes` — items that lie ahead are read up to the end of the input.
* `Production.items_accepts` — without errors only items are read.
* `compile_eq_ok_iff` — **which sources compile, and to which programs**.
-/

namespace OnePass

/-! ### Methods and their drafts -/

/-- Labels that have all got their offsets are known by them: a draft leaves out nothing of such a
label. -/
theorem LabelState.eq_map_bound {states : List LabelState} {offsets : List Nat}
    (h : states.map LabelState.offset? = (offsets.map LabelState.bound).map LabelState.offset?) :
    states = offsets.map LabelState.bound := by
  induction states generalizing offsets with
  | nil => simpa [eq_comm] using h
  | cons state states ih =>
    cases offsets with
    | nil => simp at h
    | cons offset offsets =>
      obtain ⟨hstate, hstates⟩ := List.cons.inj h
      cases state with
      | bound n =>
        obtain rfl : n = offset := Option.some.inj hstate
        rw [ih hstates, List.map_cons]
      | waiting branches => cases hstate

/-- If every label has its offset, a method is known by its draft.  Otherwise the lists of waiting
branches would be missing. -/
theorem Method.eq_of_draft_eq {m m' : Method} (h : m.draft = m'.draft)
    (hlabels : ∃ offsets : List Nat, m'.labels = (offsets.map LabelState.bound).toArray) :
    m = m' := by
  obtain ⟨name, returnType, parameters, locals, code, labels⟩ := m
  obtain ⟨name', returnType', parameters', locals', code', labels'⟩ := m'
  obtain ⟨offsets, rfl⟩ : ∃ offsets : List Nat, labels' = (offsets.map LabelState.bound).toArray :=
    hlabels
  simp only [draft, Draft.mk.injEq, Array.toList_inj] at h
  obtain ⟨rfl, rfl, rfl, rfl, rfl, hoffsets⟩ := h
  have hbound : labels.toList = offsets.map LabelState.bound := LabelState.eq_map_bound hoffsets
  rw [← hbound, Array.toArray_toList]

/-- In a method that means something every label has its offset. -/
theorem Method.Means.exists_labels {options : Options} {body : Items} {m : Method}
    (h : Method.Means options body m) :
    ∃ offsets : List Nat, m.labels = (offsets.map LabelState.bound).toArray := by
  obtain ⟨σ, f, parameters, -, hm, -⟩ := h
  exact ⟨f.labels, congrArg Method.labels hm⟩

/-- Methods that mean something are known by their drafts, one by one. -/
theorem Method.eq_of_map_draft {options : Options} {bodies : List Items} {ms ms' : List Method}
    (hmeans : List.Forall₂ (Method.Means options) bodies ms')
    (h : ms.map Method.draft = ms'.map Method.draft) : ms = ms' := by
  induction hmeans generalizing ms with
  | nil => simpa using h
  | cons hm _ ih =>
    cases ms with
    | nil => simp at h
    | cons m ms =>
      obtain ⟨hdraft, hdrafts⟩ := List.cons.inj h
      rw [eq_of_draft_eq hdraft hm.exists_labels, ih hdrafts]

/-! ### Statement lists up to the end of the input -/

mutual

/-- The warnings of a tree are no errors, so a pass that reports only these matches. -/
theorem Stmt.isError_of_mem_warnings : ∀ (t : Stmt) (ts : List Token), ∀ d ∈ t.warnings ts,
    d.isError = false
  | .block items, ts, d, h => items.isError_of_mem_warnings (ts.drop 1) d h
  | .branch _ body, _, d, h => body.isError_of_mem_warnings _ d h
  | .choice _ body other, _, d, h => by
    rcases List.mem_append.mp h with h | h
    · exact body.isError_of_mem_warnings _ d h
    · exact other.isError_of_mem_warnings _ d h
  | .loop _ body, _, d, h => body.isError_of_mem_warnings _ d h
  | .bug body, _, d, h => by
    rcases List.mem_append.mp h with h | h
    · exact body.isError_of_mem_warnings _ d h
    · obtain ⟨t, -, rfl⟩ := List.mem_map.mp h
      rfl
  | .expression _, _, _, h => by cases h
  | .empty, _, _, h => by cases h
  | .print _, _, _, h => by cases h
  | .ret _, _, _, h => by cases h
  | .leave _, _, _, h => by cases h

theorem Item.isError_of_mem_warnings : ∀ (item : Item) (ts : List Token), ∀ d ∈ item.warnings ts,
    d.isError = false
  | .field _ _, _, _, h => by cases h
  | .method _ _ _ _ body, _, d, h => body.isError_of_mem_warnings _ d h
  | .statement t, ts, d, h => t.isError_of_mem_warnings ts d h

theorem Items.isError_of_mem_warnings : ∀ (items : Items) (ts : List Token),
    ∀ d ∈ items.warnings ts, d.isError = false
  | .nil, _, _, h => by cases h
  | .cons item rest, _, d, h => by
    rcases List.mem_append.mp h with h | h
    · exact item.isError_of_mem_warnings _ d h
    · exact rest.isError_of_mem_warnings _ d h

end

/-- What is skipped is reported, so no run without errors skips anything. -/
theorem State.not_clean_skipUnexpected {s : State} (h : s.recovering = false) :
    ¬ s.skipUnexpected.Clean := by
  intro hclean
  have hreported : (s.report (.parse s.lookahead.position
      (.unexpectedToken s.lookahead.kind.describe))).Clean := by
    refine Leads.clean ?_ hclean
    unfold skipUnexpected
    rw [h]
    exact .recover _
  have herror := hreported _ (by rw [reports_report]; exact List.mem_append_right _ (.head _))
  cases herror

namespace Production

section

variable {options : Options} {bound : Nat} {item : Production Bool}
  (hi : Matches options bound Token.Kind.beginsItem (fun _ => True) item)
include hi

/-- Items that lie ahead are read up to the end of the input.  Each of them is at least one token,
so a budget of as many rounds as there are tokens is enough. -/
theorem items_goes {budget : Nat} :
    ∀ {s : State} {σ : Site} {o : Outline} {d : Draft} {items : Items} {f : Fragment},
      s.At σ o d → σ.options = options → s.tokens.length ≤ bound → s.tokens.length ≤ budget + 1 →
      s.kinds = items.kinds ++ [.endOfInput] → items.closed = true → items.lower? σ = some f →
      Ends (Production.items item budget) s
        (fun _ s' => s.Moves σ o d items.kinds f (items.warnings s.tokens) s')
        fun _ _ => False := by
  induction budget with
  | zero =>
    intro s σ o d items f h hoptions hbound hbudget hkinds hclosed hlower
    cases items with
    | nil =>
      cases hlower
      exact h.moves
    | cons i items =>
      -- an item needs a round, and there is a round for every token
      have hlength := State.two_le_length_tokens hkinds
      omega
  | succ budget ih =>
    intro s σ o d items f h hoptions hbound hbudget hkinds hclosed hlower
    refine ends_bind.mpr (ends_view.mpr ?_)
    cases items with
    | nil =>
      cases hlower
      have hend : s.atEnd = true := by simpa [State.atEnd] using State.lookahead_of_kinds hkinds
      rw [if_pos hend]
      exact h.moves
    | cons i items =>
      have hend : s.lookahead.kind ≠ .endOfInput := State.lookahead_ne_endOfInput (by
        rw [hkinds, Items.kinds, List.append_assoc])
      rw [if_neg (by simpa [State.atEnd] using hend)]
      refine ends_bind.mpr (ends_bind.mpr
        ((hi.complete_cons Item.goesOn_endOfInput h hoptions hbound
        hkinds hclosed hlower).imp ?_))
      rintro _ s₁ ⟨rfl, g, g', rfl, hclosed', hlower', hkinds₁, hlt, h₁⟩
      -- what is left is shorter by an item, and so is the budget by a round
      refine (ih h₁.here hoptions (by omega) (by omega) hkinds₁ hclosed' hlower').imp ?_
      intro _ s₂ h₂
      rw [h₁.passes.tokens] at h₂
      exact h₁.trans h₂

/-- Without errors only items are read, whatever the budget.  If it does not last, the items read so
far are those of a tree as well. -/
theorem items_accepts {budget : Nat} :
    ∀ {s : State} {σ : Site} {o : Outline} {d : Draft}, s.At σ o d → σ.options = options →
      s.tokens.length ≤ bound →
      Accepts (Production.items item budget) s fun _ s' => ∃ (items : Items) (f : Fragment),
        items.closed = true ∧ items.lower? σ = some f ∧
        s.Moves σ o d items.kinds f (items.warnings s.tokens) s' := by
  have := hi.onward
  -- none of the rounds goes back, so errors that are reported stay
  have honward (budget : Nat) : Onward (Production.items item budget) := by
    induction budget with
    | zero => exact onward_fine.pure ()
    | succ budget ih =>
      have : Onward (modify State.skipUnexpected) := onward_fine.skipUnexpected
      unfold Production.items itemOrSkip
      infer_instance
  induction budget with
  | zero =>
    intro s σ o d h hoptions hbound
    exact accepts_pure ⟨.nil, {}, rfl, rfl, h.moves⟩
  | succ budget ih =>
    intro s σ o d h hoptions hbound
    refine accepts_view ?_
    split
    · exact accepts_pure ⟨.nil, {}, rfl, rfl, h.moves⟩
    · have hitem : Accepts (itemOrSkip item) s fun _ s₁ => ∃ (i : Item) (f : Fragment),
          i.closed = true ∧ i.lower? σ = some f ∧ i.goesOn s₁.lookahead.kind = false ∧
          s.Moves σ o d i.kinds f (i.warnings s.tokens) s₁ := by
        refine (hi.sound h hoptions hbound).bind fun a s₁ ha => ?_
        cases a with
        | false =>
          -- what is no item is reported, so this round was not without errors
          intro _ s₂ hrun hclean
          cases hrun
          obtain rfl : s₁ = s := ha ((State.Leads.skipUnexpected s₁).clean hclean)
          exact absurd hclean (State.not_clean_skipUnexpected h.ready.settled)
        | true =>
          intro _ s₂ hrun hclean
          cases hrun
          obtain ⟨i, f, -, hclosed, hlower, hnext, h₁⟩ := ha hclean
          exact ⟨i, f, hclosed, hlower, hnext, h₁⟩
      refine hitem.then ?_
      rintro _ s₁ ⟨i, f, hclosed, hlower, hnext, h₁⟩
      have hlength := h₁.passes.length_tokens
      refine (ih h₁.here hoptions (by omega)).mono ?_
      rintro _ s₂ ⟨items, g, hclosed', hlower', h₂⟩
      rw [h₁.passes.tokens] at h₂
      exact ⟨.cons i items, f ++ g, Items.closed_cons hnext hclosed hclosed' h₂.passes,
        Items.lower?_cons.mpr ⟨f, hlower, g, hlower', rfl⟩, h₁.trans h₂⟩

end

end Production

/-! ### Whole sources -/

/-- The source is read without scan errors into the tokens of a tree. -/
def Writes (source : String) (items : Items) (tokens : List Token) : Prop :=
  Scans source tokens ∧ tokens.map Token.kind = items.kinds ++ [.endOfInput]

theorem Writes.tokens_eq {source : String} {items : Items} {tokens : List Token}
    (h : Writes source items tokens) : sourceTokens source = tokens := by
  rw [sourceTokens, scans_iff.mp h.1, List.map_map]
  exact List.map_id tokens

open Production

variable {options : Options} {source : String}

/-- A source without scan errors is ahead when its program has been begun, and nothing has been
reported. -/
theorem begunState_at {tokens : List Token} (h : Scans source tokens) {assembler : Assembler}
    (hshows : assembler.Shows (begunOutline options)) (log : Array Event) :
    (begunState source assembler log).At (.entry options) (begunOutline options)
        (.new "main" .void []) ∧
      (begunState source assembler log).tokens = tokens ∧
      (begunState source assembler log).reports = [] := by
  have hsteady : (begunState source assembler log).Steady (sourceKinds source) 0
      (begunOutline options) (.new "main" .void []) := begunState_steady hshows
  have hsame := State.Same.advance (.start (lexemes source))
  have hkinds : (begunState source assembler log).kinds = sourceKinds source :=
    State.kinds_advance_start source
  have hlexemes := scans_iff.mp h
  have hlast := getLast?_sourceKinds source
  cases htokens : tokens with
  | nil => simp [sourceKinds, hlexemes, htokens] at hlast
  | cons t ts =>
    -- the first token has been looked at, which there always is
    have hadvance : (State.start (lexemes source)).advance = { State.start (lexemes source) with
        lookahead := t, rest := ts.map fun t => ⟨[], t⟩, log := #[.advance t] } := by
      rw [State.advance, hlexemes, htokens]
      rfl
    have hready : (begunState source assembler log).Ready := by
      refine ⟨?_, ?_, by rw [hkinds]; exact hlast⟩
      · show (State.start (lexemes source)).advance.recovering = false
        rw [hadvance]
        rfl
      · show ∀ l ∈ (State.start (lexemes source)).advance.rest, l.errors = []
        rw [hadvance]
        intro l hl
        obtain ⟨t, -, rfl⟩ := List.mem_map.mp hl
        rfl
    refine ⟨⟨?_, rfl, ?_, rfl, ?_, hready⟩, ?_, ?_⟩
    · rw [hkinds]
      exact hsteady
    · have hloops : (begunState source assembler log).loops = [] := hsame.loops
      exact ⟨rfl, rfl, rfl, by rw [hloops]; rfl⟩
    · have hscopes : (begunState source assembler log).scopes = .initial := hsame.scopes
      rw [hscopes]
      exact Scopes.sound_initial.2
    · show (State.start (lexemes source)).advance.tokens = _
      rw [hadvance]
      simp [State.tokens, Function.comp_def]
    · show (State.start (lexemes source)).advance.reports = _
      rw [hadvance]
      rfl

/-- All of a source has been read into a fragment, with the given reports.  The fragment is what the
entry method has got. -/
def State.Read (options : Options) (f : Fragment) (reports : List Diagnostic) (s : State) : Prop :=
  s.reports = reports ∧ ∃ (s₀ : State) (ks : List Token.Kind),
    s₀.Moves (.entry options) (begunOutline options) (.new "main" .void []) ks f reports s

/-- When all of a source has been read, a program can be had: every label has its offset by then. -/
theorem State.Read.exists_finish {s : State} {f : Fragment} {reports : List Diagnostic}
    (h : s.Read options f reports) (log : Array Event) : ∃ methods logged,
      Assembler.finish ⟨s.assembler, log⟩ = .ok ⟨options.programName, methods⟩ logged ∧
      methods.toList.map Method.draft =
        (f.method "main" .void [] :: f.methods).map Method.draft := by
  obtain ⟨-, s₀, ks, hmoves⟩ := h
  have hsteady := hmoves.here.steady
  have hlabels : ∀ label ∈ ((Draft.new "main" .void []).extend f).labels, label.isSome := by
    simp [Draft.new, Draft.extend, Draft.grow]
  obtain ⟨methods, logged, hfinish, -, hdrafts⟩ :=
    Assembler.finish_shows hsteady.shows hsteady.draft hlabels log
  refine ⟨methods, logged, hfinish, hdrafts.trans ?_⟩
  have hclose := Draft.close_headed "main" .void [] f
  rw [List.map_cons, ← hclose]
  rfl

/-- When all items have been read, the program they stand for can be had.  It is known by its
drafts, since its labels all have offsets. -/
theorem State.Read.exists_program {s : State} {items : Items} {f : Fragment}
    {reports : List Diagnostic} (h : s.Read options f reports)
    (hlower : items.lower? (.entry options) = some f) (log : Array Event) :
    ∃ program logged, items.program? options = some program ∧
      Assembler.finish ⟨s.assembler, log⟩ = .ok program logged := by
  have hprogram : items.program? options =
      some ⟨options.programName, (f.method "main" .void [] :: f.methods).toArray⟩ :=
    Items.program?_eq_some.mpr ⟨f, hlower, rfl⟩
  obtain ⟨methods, logged, hfinish, hdrafts⟩ := h.exists_finish log
  have hmethods : methods.toList = f.method "main" .void [] :: f.methods :=
    Method.eq_of_map_draft (Items.means_program hprogram) hdrafts
  refine ⟨_, logged, hprogram, ?_⟩
  rw [hfinish, ← hmethods, Array.toArray_toList]

/-- A pass that has reported no error and is at the end of the input has met no scan errors. -/
theorem scans_of_clean {s : State} (h : (State.start (lexemes source)).Leads s) (hclean : s.Clean)
    (hrest : s.rest = []) : Scans source ((lexemes source).map Lexeme.token) := by
  obtain ⟨passed, added, hpassed, -, hreports, hscan⟩ := h
  rw [hrest, List.append_nil] at hpassed
  obtain rfl : lexemes source = passed := hpassed
  -- a scan error that was met would be among the reports
  have hadded : added.filterMap Diagnostic.scan? = [] := by
    refine List.filterMap_eq_nil_iff.mpr fun d hd => ?_
    have herror := hclean d (by rw [hreports]; exact List.mem_append_right _ hd)
    cases d with
    | scan e => cases herror
    | parse p e => rfl
    | warning p w => rfl
  rw [hadded] at hscan
  refine scans_iff.mpr ?_
  rw [List.map_map]
  refine (List.map_id _).symm.trans (List.map_congr_left fun l hl => ?_)
  obtain ⟨errors, token⟩ := l
  obtain rfl : errors = [] := (List.flatMap_eq_nil_iff.mp hscan.symm) _ hl
  rfl

/-- Behind the last token there is nothing: a pass at the end of the input has seen all of its
source. -/
theorem rest_eq_nil_of_atEnd {s : State} (h : s.kinds <:+ sourceKinds source)
    (hend : s.atEnd = true) : s.rest = [] := by
  obtain ⟨front, hkinds, hfront⟩ := sourceKinds_eq source
  obtain ⟨before, hbefore⟩ := h
  have hlook : s.lookahead.kind = .endOfInput := by simpa [State.atEnd] using hend
  have hsplit : before ++ .endOfInput :: (s.rest.map Lexeme.token).map Token.kind =
      front ++ [.endOfInput] := by
    rw [← hkinds, ← hbefore, ← hlook]
    rfl
  cases hrest : s.rest with
  | nil => rfl
  | cons l ls =>
    rw [hrest] at hsplit
    -- otherwise the end of the input would stand in front of the last token
    obtain ⟨init, last, hlast⟩ := List.eq_nil_or_concat
      (((l :: ls).map Lexeme.token).map Token.kind)
      |>.resolve_left (by simp)
    rw [hlast, List.concat_eq_append, ← List.cons_append, ← List.append_assoc] at hsplit
    have hinit := (List.append_inj' hsplit rfl).1
    exact absurd (hinit ▸ List.mem_append_right _ (.head _)) hfront

/-- A pass over a source without scan errors does what its items do, from the state in which its
program has been begun. -/
theorem program_ends {tokens : List Token} (hscans : Scans source tokens) {Q : State → Prop}
    (h : ∀ {s : State}, s.At (.entry options) (begunOutline options) (.new "main" .void []) →
      s.tokens = tokens → s.reports = [] →
      Ends (Production.items (item options tokens.length) tokens.length) s (fun _ => Q)
        fun _ _ => False) :
    ∃ s, program options (lexemes source).length (.start (lexemes source)) =
      .ok (decide (s.diagnostics.errorCount = 0 ∧ s.atEnd)) s ∧ Q s := by
  obtain ⟨assembler, log, hshows, hprogram⟩ := program_eq options source
  obtain ⟨hat, htokens, hreports⟩ := begunState_at hscans hshows log
  have hlength : tokens.length = (lexemes source).length := by simp [scans_iff.mp hscans]
  have hends := h hat htokens hreports
  rw [hlength] at hends
  rw [hprogram]
  -- the items are not halted, so the pass goes on to its end
  cases hitems : Production.items (item options (lexemes source).length) (lexemes source).length
      (begunState source assembler log) with
  | error e s =>
    unfold Ends at hends
    rw [hitems] at hends
    exact hends.elim
  | ok _ s =>
    refine ⟨s, ?_, hends.of_ok hitems⟩
    rw [bind_of_ok hitems]
    rfl

/-- A tree of which the tokens lie ahead is read, all of it and without errors. -/
theorem program_of_writes {items : Items} {tokens : List Token} {f : Fragment}
    (h : Writes source items tokens) (hclosed : items.closed = true)
    (hlower : items.lower? (.entry options) = some f) :
    ∃ s, program options (lexemes source).length (.start (lexemes source)) = .ok true s ∧
      s.Read options f (items.warnings tokens) := by
  obtain ⟨hscans, hkinds⟩ := h
  obtain ⟨s, hprogram, hend, hread⟩ : ∃ s,
      program options (lexemes source).length (.start (lexemes source)) =
        .ok (decide (s.diagnostics.errorCount = 0 ∧ s.atEnd)) s ∧
      s.atEnd = true ∧ s.Read options f (items.warnings tokens) := by
    refine program_ends hscans fun {s₀} hat htokens hreports => ?_
    subst htokens
    refine (items_goes (matches_item options s₀.tokens.length) hat rfl (Nat.le_refl _)
      (Nat.le_succ _) hkinds hclosed hlower).imp ?_
    intro _ s hmoves
    refine ⟨?_, ?_, _, _, hmoves⟩
    · simpa [State.atEnd] using State.lookahead_of_kinds (hmoves.passes.kinds_eq hkinds)
    · rw [hmoves.passes.reports, hreports, List.nil_append]
  -- the reports are warnings, none of which counts as an error
  have hcount : s.diagnostics.errorCount = 0 :=
    State.errorCount_eq_zero.mpr fun d hd => items.isError_of_mem_warnings tokens d (hread.1 ▸ hd)
  exact ⟨s, by simp [hprogram, hcount, hend], hread⟩

/-- Only trees are read: a pass that matches has read the tokens of a tree that means something. -/
theorem writes_of_program {s : State}
    (h : program options (lexemes source).length (.start (lexemes source)) = .ok true s) :
    ∃ (items : Items) (tokens : List Token) (f : Fragment), Writes source items tokens ∧
      items.closed = true ∧ items.lower? (.entry options) = some f ∧
      s.Read options f (items.warnings tokens) := by
  obtain ⟨assembler, log, hshows, hprogram⟩ := program_eq options source
  rw [hprogram] at h
  obtain ⟨_, s', hitems, hview⟩ := bind_eq_ok.mp h
  obtain ⟨hmatched, rfl⟩ := EStateM.Result.ok.inj hview
  obtain ⟨hcount, hend⟩ := of_decide_eq_true hmatched
  have hclean := State.errorCount_eq_zero.mp hcount
  have : Onward (Production.items (item options (lexemes source).length) (lexemes source).length) :=
    (onward_fine.grammar options).items _ _
  have hleads := leads_of_ok hitems
  have hbegun : (begunState source assembler log).kinds = sourceKinds source :=
    State.kinds_advance_start source
  -- nothing is left behind the lookahead and nothing was reported, so all tokens were scanned well
  have hrest := rest_eq_nil_of_atEnd (hbegun ▸ hleads.kinds_suffix) hend
  have hscans := scans_of_clean
    (((State.Leads.advance _).trans (.of_eq rfl rfl rfl)).trans hleads) hclean hrest
  obtain ⟨hat, htokens, hreports⟩ := begunState_at hscans hshows log
  have hlength : (begunState source assembler log).tokens.length = (lexemes source).length := by
    simp [htokens]
  obtain ⟨items, f, hclosed, hlower, hmoves⟩ := items_accepts
    (matches_item options (lexemes source).length) hat rfl (Nat.le_of_eq hlength) hitems hclean
  rw [htokens] at hmoves
  refine ⟨items, _, f, ⟨hscans, ?_⟩, hclosed, hlower, ?_, _, _, hmoves⟩
  · have hkinds := hmoves.passes.kinds
    have hlook : s'.lookahead.kind = .endOfInput := by simpa [State.atEnd] using hend
    have hlast : s'.kinds = [.endOfInput] := by
      simp [State.kinds, State.tokens, hrest, hlook]
    rwa [hlast, State.kinds, htokens] at hkinds
  · rw [hmoves.passes.reports, hreports, List.nil_append]

/-- A pass that ends well leaves what its program does. -/
theorem parse_of_ok {matched : Bool} {s : State}
    (h : program options (lexemes source).length (.start (lexemes source)) = .ok matched s) :
    parse options source = ⟨.ok matched, s⟩ := by
  unfold parse
  simp only [h]

/-- A pass that ends early leaves the state it was halted in. -/
theorem parse_of_error {e : Halt} {s : State}
    (h : program options (lexemes source).length (.start (lexemes source)) = .error e s) :
    parse options source = ⟨.error e, s⟩ := by
  unfold parse
  simp only [h]

/-- A source compiles if the pass over it matches, to the program that can be had then. -/
theorem compile_eq_ok (options : Options) (source : String) : ∃ log, ∀ c : Compilation,
    compile options source = .ok c ↔ ∃ s logged,
      program options (lexemes source).length (.start (lexemes source)) = .ok true s ∧
      Assembler.finish ⟨s.assembler, log⟩ = .ok c.program logged ∧
        s.diagnostics = c.diagnostics := by
  obtain ⟨log, hcompile⟩ := compile_eq options source
  refine ⟨log, fun c => ?_⟩
  rw [hcompile]
  cases hrun : program options (lexemes source).length (.start (lexemes source)) with
  | error h s =>
    rw [parse_of_error hrun]
    cases h <;> simp
  | ok matched s =>
    rw [parse_of_ok hrun]
    cases matched with
    | false => simp
    | true =>
      obtain ⟨program, diagnostics⟩ := c
      cases hfinish : Assembler.finish ⟨s.assembler, log⟩ with
      | error fault logged => simp [hfinish]
      | ok program' logged => simp [hfinish]

/-- **Which sources compile, and to which programs.**  A source compiles exactly if it is read
without scan errors into the tokens of a tree that stands for a program and in which nothing is
followed by something that would have been read with it.  It compiles to the program the tree
stands for, and the reports are the warnings of the tree. -/
theorem compile_eq_ok_iff {c : Compilation} : compile options source = .ok c ↔
    ∃ (items : Items) (tokens : List Token), Writes source items tokens ∧ items.closed = true ∧
      items.program? options = some c.program ∧
      c.diagnostics.entries.toList = items.warnings tokens := by
  obtain ⟨log, hcompile⟩ := compile_eq_ok options source
  rw [hcompile]
  constructor
  · rintro ⟨s, logged, hrun, hfinish, hdiagnostics⟩
    obtain ⟨items, tokens, f, hwrites, hclosed, hlower, hread⟩ := writes_of_program hrun
    obtain ⟨program, logged', hprogram, hfinish'⟩ := hread.exists_program hlower log
    -- the program that was had is the one the tree stands for
    obtain ⟨rfl, -⟩ := EStateM.Result.ok.inj (hfinish.symm.trans hfinish')
    exact ⟨items, tokens, hwrites, hclosed, hprogram, hdiagnostics ▸ hread.1⟩
  · rintro ⟨items, tokens, hwrites, hclosed, hprogram, hwarnings⟩
    obtain ⟨f, hlower, -⟩ := Items.program?_eq_some.mp hprogram
    obtain ⟨s, hrun, hread⟩ := program_of_writes hwrites hclosed hlower
    obtain ⟨program, logged, hprogram', hfinish⟩ := hread.exists_program hlower log
    -- the tree stands for one program only
    obtain rfl := Option.some.inj (hprogram.symm.trans hprogram')
    refine ⟨s, logged, hrun, hfinish, ?_⟩
    have hentries := hread.1.trans hwarnings.symm
    exact congrArg Diagnostics.mk (Array.toList_inj.mp hentries)

end OnePass
