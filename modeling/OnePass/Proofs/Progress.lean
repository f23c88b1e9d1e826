import OnePass.Proofs.Reading
import OnePass.Proofs.Steps

/-!
# The way through the tokens

Whatever a production does, and however it ends, it has passed some of the tokens in
front of it and added some reports, and each scan error on the way is reported once.
Nothing is read again and no report is taken back.

## Main definitions

* `State.tokens`, `State.kinds` — the tokens from the lookahead on.
* `State.Leads` — one state is reached from another by passing tokens and reporting.
* `State.Forward` — relations that are kept along the way.
* `State.Same` — two states differ in tokens and reports only.
* `State.Clean` — nothing has been reported as an error.
* `Production.Onward` — a production goes forward only.
* `Production.Accepts` — how a production ends if no error is reported.

## Main results

* `State.Forward.recover` — what reading keeps, recovery keeps.
* `State.Leads.tokens_suffix` — what is left to read is a suffix of what was.
* `State.Leads.clean` — **what is reported stays reported**: a state without errors is
  reached through states without errors only.
* `Production.onward_fine` — **every production goes forward only**.
-/

namespace OnePass

/-- The scan error of a report, if it is one.  Scan errors come from the source; the other reports
are made by the pass. -/
def Diagnostic.scan? : Diagnostic → Option ScanError
  | .scan e => some e
  | .parse _ _ => none
  | .warning _ _ => none

namespace State

/-- The tokens from the lookahead on.  There is always one of them, since the end of the input is a
token. -/
def tokens (s : State) : List Token := s.lookahead :: s.rest.map Lexeme.token

/-- What these tokens are, wherever they stand in the source. -/
def kinds (s : State) : List Token.Kind := s.tokens.map Token.kind

/-- What has been reported, the first report first. -/
def reports (s : State) : List Diagnostic := s.diagnostics.entries.toList

/-- Nothing has been reported as an error.  Warnings do not count. -/
def Clean (s : State) : Prop := ∀ d ∈ s.reports, d.isError = false

/-- The second state is reached from the first one by passing tokens, which become the lookahead one
after the other, and by adding reports, among them the scan errors on the way.  Nothing is said
about the rest of the state. -/
def Leads (s s' : State) : Prop :=
  ∃ (passed : List Lexeme) (added : List Diagnostic), s.rest = passed ++ s'.rest ∧
    s'.lookahead = (passed.getLast?.map Lexeme.token).getD s.lookahead ∧
    s'.reports = s.reports ++ added ∧
    added.filterMap Diagnostic.scan? = passed.flatMap Lexeme.errors

@[simp] theorem reports_report (s : State) (d : Diagnostic) :
    (s.report d).reports = s.reports ++ [d] := by
  simp [reports, report, Diagnostics.report]

theorem reports_lookAt (s : State) (lexeme : Lexeme) (rest : List Lexeme) :
    (s.lookAt lexeme rest).reports = s.reports ++ lexeme.errors.map .scan := by
  -- reporting leaves the errors of the lexeme where they are, so it is an induction on them
  have hfold (errors : List ScanError) (t : State) :
      (errors.foldl (fun s e => s.report (.scan e)) t).reports =
        t.reports ++ errors.map Diagnostic.scan := by
    induction errors generalizing t with
    | nil => simp
    | cons e errors ih => simp [ih]
  exact hfold lexeme.errors s

theorem recovering_lookAt (s : State) (lexeme : Lexeme) (rest : List Lexeme) :
    (s.lookAt lexeme rest).recovering = s.recovering := by
  have hfold (errors : List ScanError) (t : State) :
      (errors.foldl (fun s e => s.report (.scan e)) t).recovering = t.recovering := by
    induction errors generalizing t with
    | nil => rfl
    | cons e errors ih => exact ih _
  exact hfold lexeme.errors s

theorem recovering_advance (s : State) : s.advance.recovering = s.recovering := by
  unfold advance
  split
  · rfl
  · exact recovering_lookAt s _ _

/-- The number of errors is zero exactly if nothing has been reported as one, which is how a pass is
judged in the end. -/
theorem errorCount_eq_zero {s : State} : s.diagnostics.errorCount = 0 ↔ s.Clean := by
  simp [Diagnostics.errorCount, Clean, reports]

/-! ### Relations along the way -/

/-- A relation between a state and those behind it: it is kept by looking at the next token, and
recovery and log do not matter to it.  Recovery is made of such steps, so it keeps the relation as
well. -/
structure Forward (R : State → State → Prop) : Prop where
  refl (s : State) : R s s
  trans {s s₁ s₂ : State} : R s s₁ → R s₁ s₂ → R s s₂
  lookAt {s : State} {lexeme : Lexeme} {rest : List Lexeme} :
    s.rest = lexeme :: rest → R s (s.lookAt lexeme rest)
  touch (s : State) (recovering : Bool) (log : Array Event) : R s { s with recovering, log }

namespace Forward

variable {R : State → State → Prop} (hR : Forward R)
include hR

theorem advance (s : State) : R s s.advance := by
  unfold State.advance
  split
  · exact hR.refl s
  · next h => exact hR.lookAt h

theorem skip {rest : List Lexeme} {s : State} (h : s.rest = rest) : R s (s.skip rest) := by
  -- by induction on the lexemes ahead; skipping stops at one of them or at the end
  induction rest generalizing s with
  | nil => exact hR.refl s
  | cons lexeme rest ih =>
    have hlook := hR.lookAt h
    unfold State.skip
    split
    · exact hR.refl s
    · split
      · exact hlook
      · exact hR.trans hlook (ih rfl)

theorem recover (s : State) : R s s.recover := hR.trans (hR.skip rfl) (hR.touch _ _ _)

section

variable (hreport : ∀ (s : State) (p : Position) (e : ParseError), R s (s.report (.parse p e)))
include hreport

theorem errorAt (s : State) (p : Position) (e : ParseError) : R s (s.errorAt p e) := by
  unfold State.errorAt
  split
  · -- a second error within a recovery is not reported
    exact hR.touch s _ _
  · exact hR.trans (hreport s p e) (hR.recover _)

theorem skipUnexpected (s : State) : R s s.skipUnexpected := by
  unfold State.skipUnexpected
  split
  · exact hR.recover s
  · exact hR.trans (hreport s _ _) (hR.recover _)

end

end Forward

/-- The last token stays the last one: it is the end of the input from the beginning on. -/
theorem getLast?_kinds_of_suffix {s : State} {kinds : List Token.Kind} (h : s.kinds <:+ kinds) :
    s.kinds.getLast? = kinds.getLast? := by
  obtain ⟨front, rfl⟩ := h
  have hlast : s.kinds.getLast?.isSome := by simp [State.kinds, tokens]
  rw [List.getLast?_append, Option.or_of_isSome hlast]

namespace Leads

/-- States with the same tokens and reports.  Whatever else differs, one leads to the other. -/
theorem of_eq {s s' : State} (hl : s'.lookahead = s.lookahead) (hr : s'.rest = s.rest)
    (hd : s'.diagnostics = s.diagnostics) : s.Leads s' :=
  ⟨[], [], by simp [hr], by simp [hl], by simp [reports, hd], rfl⟩

theorem refl (s : State) : s.Leads s := of_eq rfl rfl rfl

theorem trans {s s₁ s₂ : State} (h : s.Leads s₁) (h' : s₁.Leads s₂) : s.Leads s₂ := by
  obtain ⟨passed, added, hrest, hlook, hrep, hscan⟩ := h
  obtain ⟨passed', added', hrest', hlook', hrep', hscan'⟩ := h'
  refine ⟨passed ++ passed', added ++ added', ?_, ?_, ?_, ?_⟩
  · rw [hrest, hrest', List.append_assoc]
  · rw [hlook', hlook]
    -- the lookahead is the last token of the second way, or if that passes none, of the first
    cases hlast : passed'.getLast? with
    | none => simp [List.getLast?_eq_none_iff.mp hlast]
    | some last => simp [List.getLast?_append, hlast]
  · rw [hrep', hrep, List.append_assoc]
  · rw [List.filterMap_append, List.flatMap_append, hscan, hscan']

/-- What is left to read is a suffix of what was.  Nothing is read again. -/
theorem tokens_suffix {s s' : State} (h : s.Leads s') : s'.tokens <:+ s.tokens := by
  obtain ⟨passed, -, hrest, hlook, -⟩ := h
  unfold tokens
  rw [hrest, hlook]
  rcases List.eq_nil_or_concat passed with rfl | ⟨init, last, rfl⟩
  · simp
  · exact ⟨s.lookahead :: init.map Lexeme.token, by simp⟩

theorem kinds_suffix {s s' : State} (h : s.Leads s') : s'.kinds <:+ s.kinds := by
  obtain ⟨front, hfront⟩ := h.tokens_suffix
  exact ⟨front.map Token.kind, by rw [kinds, kinds, ← hfront, List.map_append]⟩

theorem getLast?_kinds {s s' : State} (h : s.Leads s') : s'.kinds.getLast? = s.kinds.getLast? :=
  getLast?_kinds_of_suffix h.kinds_suffix

/-- What has been reported stays reported, and in the same order. -/
theorem reports_prefix {s s' : State} (h : s.Leads s') : s.reports <+: s'.reports := by
  obtain ⟨-, added, -, -, hrep, -⟩ := h
  exact ⟨added, hrep.symm⟩

/-- A state without errors is reached through states without errors only.  So a pass that ends
without errors can be followed step by step as one. -/
theorem clean {s s' : State} (h : s.Leads s') (hs : s'.Clean) : s.Clean :=
  fun d hd => hs d (h.reports_prefix.subset hd)

/-- A report that is no scan error may be added anywhere. -/
theorem report (s : State) {d : Diagnostic} (hd : d.scan? = none) : s.Leads (s.report d) :=
  ⟨[], [d], by simp [State.report], by simp [State.report], by simp, by simp [hd]⟩

/-- Looking at the next token, whose scan errors are reported on the way. -/
theorem lookAt {s : State} {lexeme : Lexeme} {rest : List Lexeme} (h : s.rest = lexeme :: rest) :
    s.Leads (s.lookAt lexeme rest) := by
  refine ⟨[lexeme], lexeme.errors.map .scan, h, rfl, reports_lookAt s lexeme rest, ?_⟩
  simp [List.filterMap_map, Function.comp_def, Diagnostic.scan?]

theorem forward : Forward Leads where
  refl := refl
  trans := trans
  lookAt := lookAt
  touch _ _ _ := of_eq rfl rfl rfl

theorem advance (s : State) : s.Leads s.advance := forward.advance s

theorem skip {rest : List Lexeme} {s : State} (h : s.rest = rest) : s.Leads (s.skip rest) :=
  forward.skip h

theorem recover (s : State) : s.Leads s.recover := forward.recover s

theorem errorAt (s : State) (p : Position) (e : ParseError) : s.Leads (s.errorAt p e) :=
  forward.errorAt (fun s _ _ => report s rfl) s p e

theorem skipUnexpected (s : State) : s.Leads s.skipUnexpected :=
  forward.skipUnexpected (fun s _ _ => report s rfl) s

end Leads

/-! ### What reading leaves alone -/

/-- The states agree in all that the assembler, the scopes and the productions keep.  They may
differ in the tokens ahead, the reports, the recovery and the log. -/
structure Same (s s' : State) : Prop where
  assembler : s'.assembler = s.assembler
  scopes : s'.scopes = s.scopes
  methods : s'.methods = s.methods
  loops : s'.loops = s.loops

namespace Same

theorem refl (s : State) : s.Same s := ⟨rfl, rfl, rfl, rfl⟩

theorem trans {s s₁ s₂ : State} (h : s.Same s₁) (h' : s₁.Same s₂) : s.Same s₂ :=
  ⟨h'.assembler.trans h.assembler, h'.scopes.trans h.scopes, h'.methods.trans h.methods,
    h'.loops.trans h.loops⟩

theorem report (s : State) (d : Diagnostic) : s.Same (s.report d) := ⟨rfl, rfl, rfl, rfl⟩

theorem lookAt (s : State) (lexeme : Lexeme) (rest : List Lexeme) :
    s.Same (s.lookAt lexeme rest) := by
  have hfold (errors : List ScanError) (t : State) :
      t.Same (errors.foldl (fun s e => s.report (.scan e)) t) := by
    induction errors generalizing t with
    | nil => exact refl t
    | cons e errors ih => exact (report t _).trans (ih _)
  exact (hfold lexeme.errors s).trans ⟨rfl, rfl, rfl, rfl⟩

theorem forward : Forward Same where
  refl := refl
  trans := trans
  lookAt {s lexeme rest} _ := lookAt s lexeme rest
  touch _ _ _ := ⟨rfl, rfl, rfl, rfl⟩

theorem advance (s : State) : s.Same s.advance := forward.advance s

theorem errorAt (s : State) (p : Position) (e : ParseError) : s.Same (s.errorAt p e) :=
  forward.errorAt (fun s _ _ => report s _) s p e

theorem skipUnexpected (s : State) : s.Same s.skipUnexpected :=
  forward.skipUnexpected (fun s _ _ => report s _) s

end Same

/-- What can be matched is the lookahead, and only while no error is being recovered from. -/
theorem current?_eq_some {s : State} {k : Token.Kind} :
    s.current? = some k ↔ s.recovering = false ∧ s.lookahead.kind = k := by
  unfold current?
  cases s.recovering <;> simp

/-- After an error has been reported nothing matches, until the next item settles it. -/
theorem recovering_errorAt (s : State) (p : Position) (e : ParseError) :
    (s.errorAt p e).recovering = true := by
  unfold errorAt
  split
  · next h => exact h
  · rfl

/-- Passing a token that is not the last one.  Behind it there is another one, because the end of
the input is still ahead. -/
theorem tokens_advance {s : State} (hend : s.kinds.getLast? = some .endOfInput)
    (hk : s.lookahead.kind ≠ .endOfInput) : s.tokens = s.lookahead :: s.advance.tokens := by
  unfold advance
  cases hrest : s.rest with
  | nil =>
    -- nothing is left behind the lookahead, so it would have to be the end of the input
    simp only [kinds, tokens, hrest, List.map_nil, List.map_cons, List.getLast?_singleton,
      Option.some.injEq] at hend
    exact absurd hend hk
  | cons lexeme rest => simp [tokens, hrest, lookAt]

theorem kinds_advance {s : State} (hend : s.kinds.getLast? = some .endOfInput)
    (hk : s.lookahead.kind ≠ .endOfInput) : s.kinds = s.lookahead.kind :: s.advance.kinds := by
  rw [kinds, tokens_advance hend hk]
  rfl

end State

/-! ### Whole sources -/

/-- At the beginning all tokens of the source are ahead, once the first of them has been looked
at. -/
theorem State.tokens_advance_start (source : String) :
    (State.start (lexemes source)).advance.tokens = sourceTokens source := by
  obtain ⟨front, p, htokens, -⟩ := sourceTokens_eq source
  unfold sourceTokens at htokens ⊢
  cases h : lexemes source with
  -- there is at least the lexeme of the end of the input
  | nil => simp [h] at htokens
  | cons lexeme rest => rfl

theorem State.kinds_advance_start (source : String) :
    (State.start (lexemes source)).advance.kinds = sourceKinds source := by
  rw [kinds, tokens_advance_start, map_kind_sourceTokens]

namespace Production

variable {α : Type}

/-- A production that goes forward only, however it ends.  Even one that is stopped has only passed
tokens and added reports. -/
class Onward (p : Production α) : Prop where
  ends : ∀ s, Ends p s (fun _ s' => s.Leads s') fun _ s' => s.Leads s'

/-- Every production goes forward only: the steps that read do, and the others leave tokens and
reports alone. -/
theorem onward_fine : Fine fun _ p => Onward p where
  pure _ := ⟨fun s => .refl s⟩
  bind {α β p f} hp hf := by
    refine ⟨fun s => (hp.ends s).bind fun a s₁ h => ((hf a).ends s₁).mono ?_ ?_⟩
    · exact fun _ _ h' => h.trans h'
    · exact fun _ _ h' => h.trans h'
  view _ := ⟨fun s => .refl s⟩
  accept? select := ⟨fun s => ends_accept? (fun _ _ => .advance s) fun _ => .refl s⟩
  accept kind := ⟨fun s => ends_accept (fun _ => .advance s) fun _ => .refl s⟩
  errorAt p e := ⟨fun s => .errorAt s p e⟩
  error e := ⟨fun s => .errorAt s _ e⟩
  warn p w := ⟨fun s => .report s rfl⟩
  emit _ := ⟨fun _ =>
    ends_assemble (fun _ _ _ => .of_eq rfl rfl rfl) fun _ _ _ => .of_eq rfl rfl rfl⟩
  returnType :=
    ⟨fun _ => ends_assemble (fun _ _ _ => .of_eq rfl rfl rfl) fun _ _ _ => .of_eq rfl rfl rfl⟩
  quiet c _ :=
    ⟨fun _ => ends_assemble (fun _ _ _ => .of_eq rfl rfl rfl) fun _ _ _ => .of_eq rfl rfl rfl⟩
  assemble c :=
    ⟨fun _ => ends_assemble (fun _ _ _ => .of_eq rfl rfl rfl) fun _ _ _ => .of_eq rfl rfl rfl⟩
  scope c := ⟨fun _ => ends_scope (fun _ _ _ => .of_eq rfl rfl rfl) fun _ _ _ => .of_eq rfl rfl rfl⟩
  halt h := ⟨fun s => .refl s⟩
  ensuring {α p last} hp hl := by
    refine ⟨fun s => Ends.ensuring ((hp.ends s).mono ?_ ?_)⟩
    · exact fun a s₁ h => (hl.ends s₁).mono (fun _ _ h' => h.trans h') fun _ _ h' => h.trans h'
    · exact fun e s₁ h => (hl.ends s₁).mono (fun _ _ h' => h.trans h') fun _ _ h' => h.trans h'
  adjust {g} hg := by
    refine ⟨fun s => ?_⟩
    obtain ⟨loops, methods, recovering, log, h⟩ := hg s
    show s.Leads (g s)
    rw [h]
    exact .of_eq rfl rfl rfl
  skipUnexpected := ⟨fun s => .skipUnexpected s⟩

/-- What is known where a production that goes forward ends, together with the way it has gone. -/
theorem Onward.ends_and {p : Production α} (hp : Onward p) {s : State} {Q : α → State → Prop}
    {E : Halt → State → Prop} (h : Ends p s Q E) :
    Ends p s (fun a s' => s.Leads s' ∧ Q a s') fun _ _ => True :=
  ((hp.ends s).and h).mono (fun _ _ h => h) fun _ _ _ => trivial

/-- What a production that goes forward only and succeeds has passed. -/
theorem leads_of_ok {p : Production α} [Onward p] {s s' : State} {a : α} (h : p s = .ok a s') :
    s.Leads s' :=
  (Onward.ends (p := p) s).of_ok h

/-- Errors before a production are still there after it, so there were none if there are none. -/
theorem clean_of_ok {p : Production α} [Onward p] {s s' : State} {a : α} (h : p s = .ok a s')
    (hs : s'.Clean) : s.Clean :=
  (leads_of_ok h).clean hs

instance {a : α} : Onward (pure a) := onward_fine.pure a

instance {β : Type} {p : Production α} {f : α → Production β} [hp : Onward p]
    [hf : ∀ a, Onward (f a)] : Onward (p >>= f) := onward_fine.bind hp hf

instance {c : Prop} [Decidable c] {p q : Production α} [hp : Onward p] [hq : Onward q] :
    Onward (if c then p else q) := mem_ite (C := fun _ p => Onward p) hp hq

instance {g : State → α} : Onward (view g) := onward_fine.view g

instance {kind : Token.Kind} : Onward (accept kind) := onward_fine.accept kind

instance {p : Position} {e : ParseError} : Onward (errorAt p e) := onward_fine.errorAt p e

instance {e : ParseError} : Onward (error e) := onward_fine.error e

instance {p : Position} {w : Warning} : Onward (warn p w) := onward_fine.warn p w

instance {operation : Operation} : Onward (emit operation) := onward_fine.assemble _

instance {label : Label} : Onward (assemble (.branch label) : Production Unit) :=
  onward_fine.assemble (.branch label)

instance {label : Label} : Onward (assemble (.branchIfFalse label) : Production Unit) :=
  onward_fine.assemble (.branchIfFalse label)

instance {label : Label} : Onward (assemble (.bindLabel label) : Production Nat) :=
  onward_fine.assemble (.bindLabel label)

instance {well : Bool} {p : Position} {e : ParseError} : Onward (check well p e) :=
  onward_fine.check well p e

instance {mark : Symbol} : Onward (expect mark) := onward_fine.expect mark

/-! ### Runs without errors -/

/-- A production run from `s` that ends well, with no error reported so far, ends with `Q` of its
answer and the state it leaves.  Nothing is said about runs that report an error. -/
def Accepts (p : Production α) (s : State) (Q : α → State → Prop) : Prop :=
  ∀ ⦃a s'⦄, p s = .ok a s' → s'.Clean → Q a s'

section

variable {β : Type} {p : Production α} {f : α → Production β} {s : State} {Q : α → State → Prop}
  {Q' : β → State → Prop}

theorem accepts_pure {a : α} (h : Q a s) : Accepts (pure a) s Q := by
  intro b s' hrun _
  obtain ⟨rfl, rfl⟩ := pure_eq_ok.mp hrun
  exact h

/-- It can be assumed that no error has been reported before, since it would still be there. -/
theorem Accepts.of_clean [Onward p] (h : s.Clean → Accepts p s Q) : Accepts p s Q :=
  fun _ _ hrun hclean => h (clean_of_ok hrun hclean) hrun hclean

theorem Accepts.mono {Q₁ : α → State → Prop} (h : Accepts p s Q) (hQ : ∀ a s', Q a s' → Q₁ a s') :
    Accepts p s Q₁ :=
  fun a s' hrun hclean => hQ a s' (h hrun hclean)

/-- A step after another one, where it is known how the first one ends. -/
theorem Ends.then {E : Halt → State → Prop} (h : Ends p s Q E)
    (hf : ∀ a s', Q a s' → Accepts (f a) s' Q') : Accepts (p >>= f) s Q' := by
  intro b s' hrun hclean
  obtain ⟨a, s₁, hp, hrun⟩ := bind_eq_ok.mp hrun
  exact hf a s₁ (h.of_ok hp) hrun hclean

/-- A step after another one, which may have reported an error.  What follows has to cope with
that. -/
theorem Accepts.bind (h : Accepts p s Q)
    (hf : ∀ a s', (s'.Clean → Q a s') → Accepts (f a) s' Q') : Accepts (p >>= f) s Q' := by
  intro b s' hrun hclean
  obtain ⟨a, s₁, hp, hrun⟩ := bind_eq_ok.mp hrun
  exact hf a s₁ (h hp) hrun hclean

/-- A step after another one; errors reported by the first one stay reported, so what follows may
take it that there were none. -/
theorem Accepts.then [hf : ∀ a, Onward (f a)] (h : Accepts p s Q)
    (hQ : ∀ a s', Q a s' → Accepts (f a) s' Q') : Accepts (p >>= f) s Q' :=
  h.bind fun a s₁ h₁ => .of_clean fun hclean => hQ a s₁ (h₁ hclean)

theorem accepts_view {g : State → α} (h : Accepts (f (g s)) s Q') :
    Accepts (view g >>= f) s Q' := by
  intro b s' hrun hclean
  obtain ⟨a, s₁, hview, hrun⟩ := bind_eq_ok.mp hrun
  cases hview
  exact h hrun hclean

theorem accepts_modify {g : State → State} {f : Unit → Production β} (h : Accepts (f ()) (g s) Q') :
    Accepts (modify g >>= f) s Q' := by
  intro b s' hrun hclean
  obtain ⟨a, s₁, hmodify, hrun⟩ := bind_eq_ok.mp hrun
  cases hmodify
  exact h hrun hclean

/-- A step and a last one, after which it has ended well.  The last one is also made if the step is
stopped, but then the whole is stopped. -/
theorem Accepts.ensuring {last : Production Unit} [Onward last] {Q₁ : α → State → Prop}
    (h : Accepts p s Q) (hlast : ∀ a s', Q a s' → Accepts last s' fun _ s₁ => Q₁ a s₁) :
    Accepts (ensuring p last) s Q₁ := by
  intro a s' hrun hclean
  unfold Production.ensuring at hrun
  cases hp : p s with
  -- a stopped step does not end well, whatever the last one does
  | error e s₁ =>
    rw [hp] at hrun
    cases hl : last s₁ <;> simp [hl] at hrun
  | ok b s₁ =>
    rw [hp] at hrun
    cases hl : last s₁ with
    | error e s₂ => simp [hl] at hrun
    | ok x s₂ =>
      simp only [hl, EStateM.Result.ok.injEq] at hrun
      obtain ⟨rfl, rfl⟩ := hrun
      exact hlast b s₁ (h hp (clean_of_ok hl hclean)) hl hclean

theorem Ends.accepts {E : Halt → State → Prop} (h : Ends p s Q E) : Accepts p s Q :=
  fun _ _ hrun _ => h.of_ok hrun

theorem Accepts.and_ends {Q₁ : α → State → Prop} {E : Halt → State → Prop} (h : Accepts p s Q)
    (h' : Ends p s Q₁ E) : Accepts p s fun a s' => Q a s' ∧ Q₁ a s' :=
  fun _ _ hrun hclean => ⟨h hrun hclean, h'.of_ok hrun⟩

end

end Production

end OnePass
