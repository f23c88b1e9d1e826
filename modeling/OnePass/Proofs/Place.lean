import OnePass.Proofs.Unbroken

/-!
# Where the pass stands

A state of the pass stands at a site if it agrees with it in all that decides what is
read next: the names, the method around, how much of that method is written, and the
loops.  Here it is shown how the steps of a production move from site to site, as long
as nothing is reported as an error.

## Main definitions

* `State.Ready` — no error is being recovered from, and no scan error is ahead.
* `State.Passes` — some tokens are passed, and some warnings reported.
* `State.At` — a state stands at a site.
* `State.Goes` — a state at a site is reached, with the current method rewritten.
* `State.Moves` — a state is reached by reading a fragment.

## Main results

* `State.Goes.trans`, `State.Moves.trans` — one way after another.
* `Production.request_goes` — the effect of a request to the assembler; from it
  `Production.emit_moves`, `Production.newLabel_goes`, `Production.branch_goes`,
  `Production.branchIfFalse_goes` and `Production.bindLabel_goes`.
-/

namespace OnePass

/-! ### Growing drafts -/

namespace Draft

/-- A method with more locals, code and labels, each behind what it has. -/
def grow (d : Draft) (locals : List Variable) (code : List Instruction)
    (labels : List (Option Nat)) : Draft :=
  { d with locals := d.locals ++ locals, code := d.code ++ code, labels := d.labels ++ labels }

/-- A method with a fragment behind what it has.  All labels of a fragment have their offsets. -/
def extend (d : Draft) (f : Fragment) : Draft := d.grow f.locals f.code (f.labels.map some)

variable {d : Draft} {locals : List Variable} {code : List Instruction}
  {labels : List (Option Nat)}

@[simp] theorem grow_nil (d : Draft) : d.grow [] [] [] = d := by simp [grow]

@[simp] theorem grow_grow (locals' : List Variable) (code' : List Instruction)
    (labels' : List (Option Nat)) : (d.grow locals code labels).grow locals' code' labels' =
      d.grow (locals ++ locals') (code ++ code') (labels ++ labels') := by simp [grow]

@[simp] theorem extend_empty (d : Draft) : d.extend {} = d := grow_nil d

@[simp] theorem extend_append (d : Draft) (f g : Fragment) :
    d.extend (f ++ g) = (d.extend f).extend g := by simp [extend]

/-- A label that is there keeps its target, because labels are only added behind it. -/
theorem target_grow {k : Nat} (hk : k < d.labels.length) :
    (d.grow locals code labels).target k = d.target k := by
  simp [target, grow, List.getElem?_append_left hk]

/-- Binding a label that came after the rest of the method.  No branch of the rest waits for it, so
only the code that came with it is changed. -/
theorem grow_bindLabel (l : Nat)
    (hcode : ∀ i ∈ d.code, i.target? ≠ some (.pending (d.labels.length + l))) :
    (d.grow locals code labels).bindLabel (d.labels.length + l) =
      d.grow locals
        (code.map (Instruction.redirect (d.labels.length + l) (d.code.length + code.length)))
        (labels.set l (some (d.code.length + code.length))) := by
  have hmap (o : Nat) : d.code.map (Instruction.redirect (d.labels.length + l) o) = d.code :=
    (List.map_congr_left fun i hi => Instruction.redirect_of_ne (hcode i hi)).trans (List.map_id _)
  simp [grow, bindLabel, hmap]

/-- Where the labels of a loop go, according to what is written of the method so far. -/
def exits (d : Draft) (loop : Loop) : Exits :=
  ⟨d.target loop.breakLabel.index, d.target loop.continueLabel.index⟩

end Draft

/-! ### Sites and outlines -/

/-- The exits of a loop after a label has got its offset. -/
def Exits.redirect (l offset : Nat) (exits : Exits) : Exits :=
  ⟨exits.after.redirect l offset, exits.again.redirect l offset⟩

namespace Site

/-- The site after a label has got its offset, which only the exits of the loop around can tell. -/
def redirect (l offset : Nat) (σ : Site) : Site :=
  { σ with loop := σ.loop.map (Exits.redirect l offset) }

/-- The site so many instructions later, with nothing declared in between. -/
def ahead (σ : Site) (n : Nat) : Site := { σ with offset := σ.offset + n }

@[simp] theorem ahead_ahead (σ : Site) (m n : Nat) : (σ.ahead m).ahead n = σ.ahead (m + n) := by
  simp [ahead, Nat.add_assoc]

@[simp] theorem find?_ahead (σ : Site) (n : Nat) (x : String) : (σ.ahead n).find? x = σ.find? x :=
  rfl

@[simp] theorem store?_ahead (σ : Site) (n : Nat) (x : String) :
    (σ.ahead n).store? x = σ.store? x := rfl

/-- Only code lies between the sites: a fragment without names, locals and methods. -/
theorem past_eq_ahead (σ : Site) {f : Fragment} (hnames : f.names = []) (hlocals : f.locals = [])
    (hmethods : f.methods = []) : σ.past f = σ.ahead f.code.length := by
  obtain ⟨options, names, method, returnType, locals, offset, methods, loop⟩ := σ
  cases names <;> simp [past, declare, ahead, hnames, hlocals, hmethods]

@[simp] theorem past_plain (σ : Site) (code : List Operation) :
    σ.past (.plain code) = σ.ahead code.length := by
  rw [past_eq_ahead σ rfl rfl rfl]
  simp [Fragment.plain]

@[simp] theorem past_jump (σ : Site) (operations : List Operation) (branch : Instruction)
    (labels : List Nat) :
    σ.past (.jump operations branch labels) = σ.ahead (operations.length + 1) := by
  rw [past_eq_ahead σ rfl rfl rfl]
  simp [Fragment.jump]

@[simp] theorem past_skip (σ σ' : Site) (condition : List Operation) (size : Nat) :
    σ.past (σ'.skip condition size) = σ.ahead (condition.length + 1) := past_jump σ _ _ _

@[simp] theorem past_leap (σ σ' : Site) (size : Nat) : σ.past (σ'.leap size) = σ.ahead 1 :=
  past_jump σ _ _ _

@[simp] theorem past_round (σ σ' : Site) (condition : List Operation) (size : Nat) :
    σ.past (σ'.round condition size) = σ.ahead (condition.length + 1) := past_jump σ _ _ _

@[simp] theorem past_again (σ σ' : Site) : σ.past σ'.again = σ.ahead 1 := past_jump σ _ _ _

/-- The site agrees with what is written of its method, and with the loops around. -/
structure Fits (σ : Site) (d : Draft) (loops : List Loop) : Prop where
  returnType : d.returnType = σ.returnType
  locals : d.locals.length = σ.locals
  offset : d.code.length = σ.offset
  loop : σ.loop = loops.head?.map d.exits

end Site

/-- The outline with another draft of a method, and with more methods behind those it has. -/
def Outline.put (o : Outline) (id : MethodId) (d : Draft) (methods : List Draft) : Outline :=
  ⟨o.title, o.drafts.set id d ++ methods, o.opened⟩

namespace Outline

variable {o : Outline} {id : MethodId} {d : Draft}

theorem put_self (h : o.drafts[id]? = some d) : o.put id d [] = o := by
  simp [put, set_of_getElem? h]

theorem put_put (h : id < o.drafts.length) (d' : Draft) (ms ms' : List Draft) :
    (o.put id d ms).put id d' ms' = o.put id d' (ms ++ ms') := by
  simp [put, h]

end Outline

/-! ### Passing tokens -/

namespace State

/-- No error is being recovered from, and no scan error is ahead.  From such a state on, what is
read depends on the kinds of the tokens only. -/
structure Ready (s : State) : Prop where
  settled : s.recovering = false
  quiet : ∀ l ∈ s.rest, l.errors = []
  last : s.kinds.getLast? = some .endOfInput

/-- The second state is reached from the first one by passing the given tokens, with the
given reports on the way. -/
structure Passes (s : State) (ks : List Token.Kind) (added : List Diagnostic) (s' : State) :
    Prop where
  ready : s'.Ready
  kinds : s.kinds = ks ++ s'.kinds
  tokens : s'.tokens = s.tokens.drop ks.length
  reports : s'.reports = s.reports ++ added

variable {s s₁ s' : State} {ks ks' : List Token.Kind} {added added' : List Diagnostic}

theorem Ready.passes (h : s.Ready) : s.Passes [] [] s := ⟨h, rfl, by simp, by simp⟩

theorem Passes.trans (h : s.Passes ks added s₁) (h' : s₁.Passes ks' added' s') :
    s.Passes (ks ++ ks') (added ++ added') s' := by
  refine ⟨h'.ready, ?_, ?_, ?_⟩
  · rw [h.kinds, h'.kinds, List.append_assoc]
  · rw [h'.tokens, h.tokens, List.drop_drop, List.length_append]
  · rw [h'.reports, h.reports, List.append_assoc]

theorem Passes.length_tokens (h : s.Passes ks added s') :
    s.tokens.length = ks.length + s'.tokens.length := by
  have hlength := congrArg List.length h.kinds
  simpa [State.kinds] using hlength

/-- What is left to read, if it is known what was there and what has been passed. -/
theorem Passes.kinds_eq (h : s.Passes ks added s') {rest : List Token.Kind}
    (hkinds : s.kinds = ks ++ rest) : s'.kinds = rest :=
  List.append_cancel_left (h.kinds.symm.trans hkinds)

/-- The tokens that are passed determine the lookahead, whatever has been reported. -/
theorem Passes.lookahead_eq (h : s.Passes ks added s') (h₁ : s.Passes ks added' s₁) :
    s'.lookahead = s₁.lookahead :=
  (List.cons.inj (h.tokens.trans h₁.tokens.symm)).1

theorem length_tokens_pos (s : State) : 0 < s.tokens.length := Nat.succ_pos _

/-- A budget that lasts for the tokens ahead lasts for one of them, since the end of the input is
among them. -/
theorem exists_budget {s : State} {budget : Nat} (h : s.tokens.length ≤ budget) :
    ∃ n, budget = n + 1 :=
  Nat.exists_eq_succ_of_ne_zero (Nat.ne_of_gt (Nat.lt_of_lt_of_le s.length_tokens_pos h))

theorem lookahead_of_kinds {k : Token.Kind} {rest : List Token.Kind} (h : s.kinds = k :: rest) :
    s.lookahead.kind = k :=
  (List.cons.inj h).1

/-- A token is passed that is not the last one, and without a scan error there is no report. -/
theorem Ready.advance (h : s.Ready) (hk : s.lookahead.kind ≠ .endOfInput) :
    s.Passes [s.lookahead.kind] [] s.advance := by
  have hkinds := kinds_advance h.last hk
  have htokens := tokens_advance h.last hk
  have hlast := (Leads.advance s).getLast?_kinds.trans h.last
  cases hrest : s.rest with
  | nil =>
    -- the last token is the end of the input, and the one ahead is not
    have hend := h.last
    simp [kinds, tokens, hrest, hk] at hend
  | cons lexeme rest =>
    have hquiet := h.quiet
    rw [hrest] at hquiet
    have herrors := hquiet lexeme List.mem_cons_self
    have hadvance : s.advance = { s with
        lookahead := lexeme.token, rest := rest, log := s.log.push (.advance lexeme.token) } := by
      simp [State.advance, hrest, lookAt, herrors]
    refine ⟨⟨?_, ?_, hlast⟩, hkinds, ?_, ?_⟩
    · rw [hadvance]
      exact h.settled
    · rw [hadvance]
      exact fun l hl => hquiet l (List.mem_cons_of_mem _ hl)
    · rw [htokens]
      rfl
    · rw [hadvance]
      simp [reports]

/-- An error that is reported stays in the reports, so no run without errors gets behind it. -/
theorem not_clean_errorAt (h : s.recovering = false) (p : Position) (e : ParseError) :
    ¬ (s.errorAt p e).Clean := by
  intro hclean
  have hreported : (s.report (.parse p e)).Clean := by
    refine Leads.clean ?_ hclean
    unfold errorAt
    rw [h]
    exact .recover _
  have := hreported (.parse p e) (by simp)
  cases this

/-! ### States at a site -/

/-- The state stands at a site, in a method with draft `d` of a program with outline `o`.  The entry
point is the outermost open method. -/
structure At (s : State) (σ : Site) (o : Outline) (d : Draft) : Prop where
  steady : s.Steady s.kinds σ.method o d
  entry : s.methods.getLast? = some 0
  fits : σ.Fits d s.loops
  methods : o.drafts.length = σ.methods
  names : s.scopes.names = σ.names
  ready : s.Ready

/-- From a state that shows the outline `o`, a state at a site is reached by passing the given
tokens, with the given reports on the way.  The method around the site has got the draft `d`,
and the program more methods. -/
structure Goes (s : State) (o : Outline) (ks : List Token.Kind) (added : List Diagnostic)
    (s' : State) (σ : Site) (d : Draft) (methods : List Draft) : Prop where
  passes : s.Passes ks added s'
  here : s'.At σ (o.put σ.method d methods) d
  inside : σ.method < o.drafts.length
  loops : s'.loops = s.loops

/-- From a state at a site, the state behind a fragment is reached, with the fragment added to the
method. -/
def Moves (s : State) (σ : Site) (o : Outline) (d : Draft) (ks : List Token.Kind) (f : Fragment)
    (added : List Diagnostic) (s' : State) : Prop :=
  s.Goes o ks added s' (σ.past f) (d.extend f) (f.methods.map Method.draft)

variable {σ σ₁ σ' : Site} {o : Outline} {d d₁ d' : Draft} {ms ms' : List Draft}

theorem At.lt (h : s.At σ o d) : σ.method < o.drafts.length :=
  (List.getElem?_eq_some_iff.mp h.steady.draft).1

/-- Reading on without errors leaves a state at its site, as long as only tokens, reports and the
log change. -/
theorem At.of_same (h : s.At σ o d) (hsame : s.Same s') (hready : s'.Ready) : s'.At σ o d where
  steady := by
    refine ⟨?_, ?_, ?_, h.steady.draft, ?_, ?_, List.suffix_refl _⟩
    · rw [hsame.assembler]
      exact h.steady.shows
    · rw [hsame.methods]
      exact h.steady.opened
    · rw [hsame.methods]
      exact h.steady.current
    · rw [hsame.loops]
      exact h.steady.loops
    · rw [hsame.scopes]
      exact h.steady.scopes
  entry := by
    rw [hsame.methods]
    exact h.entry
  fits := by
    rw [hsame.loops]
    exact h.fits
  methods := h.methods
  names := by
    rw [hsame.scopes]
    exact h.names
  ready := hready

theorem At.goes (h : s.At σ o d) : s.Goes o [] [] s σ d [] :=
  ⟨h.ready.passes, by rwa [Outline.put_self h.steady.draft], h.lt, rfl⟩

/-- One way after another.  Both rewrite the same method, so the second draft replaces the first
one. -/
theorem Goes.trans (h : s.Goes o ks added s₁ σ₁ d₁ ms)
    (h' : s₁.Goes (o.put σ₁.method d₁ ms) ks' added' s' σ' d' ms')
    (hmethod : σ'.method = σ₁.method) :
    s.Goes o (ks ++ ks') (added ++ added') s' σ' d' (ms ++ ms') := by
  refine ⟨h.passes.trans h'.passes, ?_, hmethod ▸ h.inside, h'.loops.trans h.loops⟩
  have hhere := h'.here
  rwa [hmethod, Outline.put_put h.inside, ← hmethod] at hhere

/-- Reading on without errors, at the end of a way. -/
theorem Goes.of_same (h : s.Goes o ks added s₁ σ d ms) (hsame : s₁.Same s')
    (hpasses : s₁.Passes ks' added' s') :
    s.Goes o (ks ++ ks') (added ++ added') s' σ d ms :=
  ⟨h.passes.trans hpasses, h.here.of_same hsame hpasses.ready, h.inside, hsame.loops.trans h.loops⟩

theorem Goes.behind {f : Fragment}
    (h : s.Goes o ks added s' (σ.past f) (d.extend f) (f.methods.map Method.draft)) :
    s.Moves σ o d ks f added s' := h

/-- Entering a loop with labels of the current method, which become the exits of the site. -/
theorem At.enterLoop (h : s.At σ o d) {loop : Loop}
    (hloop : loop.BelongsTo σ.method d.labels.length) :
    State.At { s with loops := loop :: s.loops } (σ.within (d.exits loop)) o d where
  steady := ⟨h.steady.shows, h.steady.opened, h.steady.current, h.steady.draft,
    List.forall_mem_cons.mpr ⟨hloop, h.steady.loops⟩, h.steady.scopes, h.steady.ahead⟩
  entry := h.entry
  fits := ⟨h.fits.returnType, h.fits.locals, h.fits.offset, rfl⟩
  methods := h.methods
  names := h.names
  ready := ⟨h.ready.settled, h.ready.quiet, h.ready.last⟩

/-- Leaving a loop.  The loops around are those from before it.  Where they are left for has to be
shown again, since labels may have been bound in between. -/
theorem Goes.leaveLoop (h : s.Goes o ks added s₁ σ d ms) {loop : Loop}
    (h' : State.Goes { s₁ with loops := loop :: s₁.loops } (o.put σ.method d ms) ks' added' s'
      σ' d' ms')
    (hmethod : σ'.method = σ.method) (hexits : σ.loop = s₁.loops.head?.map d'.exits) :
    s.Goes o (ks ++ ks') (added ++ added') { s' with loops := s'.loops.tail }
      { σ' with loop := σ.loop } d' (ms ++ ms') := by
  have hhere := h'.here
  have htail : s'.loops.tail = s₁.loops := by rw [h'.loops]; rfl
  -- the same method was written on before the loop and in it
  rw [hmethod, Outline.put_put h.inside, ← hmethod] at hhere
  have hready : State.Ready { s' with loops := s'.loops.tail } :=
    ⟨hhere.ready.settled, hhere.ready.quiet, hhere.ready.last⟩
  refine ⟨?_, ⟨⟨hhere.steady.shows, hhere.steady.opened, hhere.steady.current, hhere.steady.draft,
    fun loop hloop => hhere.steady.loops loop (List.mem_of_mem_tail hloop), hhere.steady.scopes,
    hhere.steady.ahead⟩, hhere.entry, ⟨hhere.fits.returnType, hhere.fits.locals,
    hhere.fits.offset, ?_⟩, hhere.methods, hhere.names, hready⟩, hmethod ▸ h.inside, ?_⟩
  · -- taking the loop away changes nothing that passing tokens is about
    have hpasses : s₁.Passes ks' added' { s' with loops := s'.loops.tail } :=
      ⟨hready, h'.passes.kinds, h'.passes.tokens, h'.passes.reports⟩
    exact h.passes.trans hpasses
  · exact htail ▸ hexits
  · exact htail.trans h.loops

/-- Reading on without adding anything is reading the empty fragment. -/
theorem Goes.moves (h : s.Goes o ks added s' σ d []) : s.Moves σ o d ks {} added s' := by
  simpa [Moves] using h

theorem At.moves (h : s.At σ o d) : s.Moves σ o d [] {} [] s := h.goes.moves

theorem Moves.trans {f g : Fragment} (h : s.Moves σ o d ks f added s₁)
    (h' : s₁.Moves (σ.past f) (o.put σ.method (d.extend f) (f.methods.map Method.draft))
      (d.extend f) ks' g added' s') :
    s.Moves σ o d (ks ++ ks') (f ++ g) (added ++ added') s' := by
  have htrans := Goes.trans h h' rfl
  simpa [Moves] using htrans

end State

namespace Production

variable {α : Type} {s s₁ : State} {ks : List Token.Kind} {added : List Diagnostic} {σ : Site}
  {o : Outline} {d : Draft} {ms : List Draft} {E : Halt → State → Prop}

/-! ### Matching -/

section

variable (h : s.Goes o ks added s₁ σ d ms)
include h

/-- A token is passed if it matches, and otherwise nothing happens.  No error is being recovered
from, so only the kind of the token decides. -/
theorem accept_goes {kind : Token.Kind} (hkind : kind ≠ .endOfInput) :
    Ends (accept kind) s₁ (fun found s₂ => match found with
      | true => s₁.lookahead.kind = kind ∧ s.Goes o (ks ++ [kind]) added s₂ σ d ms
      | false => s₁.lookahead.kind ≠ kind ∧ s₂ = s₁) E := by
  refine ends_accept (fun hcurrent => ?_) fun hcurrent => ?_
  · obtain ⟨-, rfl⟩ := State.current?_eq_some.mp hcurrent
    have hgoes := h.of_same (.advance s₁) (h.here.ready.advance hkind)
    exact ⟨rfl, by simpa using hgoes⟩
  · refine ⟨fun heq => hcurrent (State.current?_eq_some.mpr ⟨h.here.ready.settled, heq⟩), rfl⟩

theorem accept?_goes (select : Token.Kind → Option α) (hselect : select .endOfInput = none) :
    Ends (accept? select) s₁ (fun found s₂ => match found with
      | some a => select s₁.lookahead.kind = some a ∧
        s.Goes o (ks ++ [s₁.lookahead.kind]) added s₂ σ d ms
      | none => select s₁.lookahead.kind = none ∧ s₂ = s₁) E := by
  have hcurrent : s₁.current? = some s₁.lookahead.kind :=
    State.current?_eq_some.mpr ⟨h.here.ready.settled, rfl⟩
  refine ends_accept? (fun a ha => ?_) fun hnone => ?_
  · have hselected : select s₁.lookahead.kind = some a := by simpa [hcurrent] using ha
    -- what is selected is not the end of the input, so it can be passed
    have hne : s₁.lookahead.kind ≠ .endOfInput := by
      intro heq
      simp [heq, hselect] at hselected
    have hgoes := h.of_same (.advance s₁) (h.here.ready.advance hne)
    exact ⟨hselected, by simpa using hgoes⟩
  · exact ⟨by simpa [hcurrent] using hnone, rfl⟩

/-- A token that matches is passed, whichever way of ending is asked for. -/
theorem accept_takes {kind : Token.Kind} (hkind : kind ≠ .endOfInput)
    (hlook : s₁.lookahead.kind = kind) :
    Ends (accept kind) s₁ (fun found s₂ => found = true ∧
      s.Goes o (ks ++ [kind]) added s₂ σ d ms) E := by
  refine (accept_goes h hkind).imp ?_
  rintro (_ | _) s₂ ⟨hfound, h₂⟩
  · exact absurd hlook hfound
  · exact ⟨rfl, h₂⟩

theorem accept?_takes (select : Token.Kind → Option α) (hselect : select .endOfInput = none)
    {kind : Token.Kind} (hlook : s₁.lookahead.kind = kind) {a : α} (hkind : select kind = some a) :
    Ends (accept? select) s₁ (fun found s₂ => found = some a ∧
      s.Goes o (ks ++ [kind]) added s₂ σ d ms) E := by
  subst hlook
  refine (accept?_goes h select hselect).imp ?_
  rintro (_ | b) s₂ ⟨hfound, h₂⟩
  · simp [hkind] at hfound
  · exact ⟨hfound.symm.trans hkind, h₂⟩

/-- A token that does not match is left alone, and so is all of the state. -/
theorem accept?_leaves (select : Token.Kind → Option α)
    (hkind : select s₁.lookahead.kind = none) :
    Ends (accept? select) s₁ (fun found s₂ => found = none ∧ s₂ = s₁) E := by
  have hcurrent : s₁.current? = some s₁.lookahead.kind :=
    State.current?_eq_some.mpr ⟨h.here.ready.settled, rfl⟩
  refine ends_accept? (fun a ha => ?_) fun _ => ⟨rfl, rfl⟩
  simp [hcurrent, hkind] at ha

/-- A symbol that is there is passed.  The error for a missing one does not arise. -/
theorem expect_goes {mark : Symbol} (hmark : s₁.lookahead.kind = .symbol mark) :
    Ends (expect mark) s₁ (fun _ s₂ => s.Goes o (ks ++ [.symbol mark]) added s₂ σ d ms) E := by
  refine (accept_takes h (by simp) hmark).bind ?_
  rintro _ s₂ ⟨rfl, h₂⟩
  exact h₂

end

/-! ### Errors -/

section

variable {β : Type} {f : Unit → Production β} {Q : β → State → Prop}

/-- No run without errors reports one, so anything can be said of what follows. -/
theorem accepts_errorAt [∀ x, Onward (f x)] (h : s.recovering = false) (p : Position)
    (e : ParseError) : Accepts (errorAt p e >>= f) s Q := by
  have hfalse : Accepts (errorAt p e) s fun _ _ => False :=
    fun _ _ hrun hclean => by
      cases hrun
      exact State.not_clean_errorAt h p e hclean
  exact hfalse.then fun _ _ => False.elim

theorem accepts_error [∀ x, Onward (f x)] (h : s.recovering = false) (e : ParseError) :
    Accepts (error e >>= f) s Q :=
  accepts_errorAt h s.lookahead.position e

/-- In a run without errors all is well: a check that fails reports an error. -/
theorem check_accepts (h : s.recovering = false) {well : Bool} {p : Position} {e : ParseError} :
    Accepts (check well p e) s fun _ s' => well = true ∧ s' = s := by
  unfold check
  cases well with
  | true => exact accepts_pure ⟨rfl, rfl⟩
  | false => exact accepts_errorAt (f := pure) h p e

theorem expect_accepts (h : s.Goes o ks added s₁ σ d ms) (mark : Symbol) :
    Accepts (expect mark) s₁ fun _ s₂ => s.Goes o (ks ++ [.symbol mark]) added s₂ σ d ms := by
  refine (accept_goes (E := fun _ _ => True) h (by simp)).then ?_
  rintro (_ | _) s₂ h₂
  · -- a symbol that is missing is reported as an error
    rw [h₂.2]
    exact accepts_error (f := pure) h.here.ready.settled _
  · exact accepts_pure h₂.2

end

/-! ### Requests -/

section

variable (h : s.Goes o ks added s₁ σ d ms)
include h

/-- A request that rewrites the draft of the current method.  All requests about code are of this
form, so that only what they do to the draft has to be said of each of them. -/
theorem request_goes {c : Assembler.Call} {x : c.Answer} (σ' : Site) (e : Draft)
    (hrun : ∀ {a title drafts ids}, Assembler.Shows a ⟨title, drafts, σ.method :: ids⟩ →
      drafts[σ.method]? = some d →
      ∃ a', c.run a = .ok x a' ∧ a'.Shows ⟨title, drafts.set σ.method e, σ.method :: ids⟩)
    (hsite : σ'.method = σ.method ∧ σ'.methods = σ.methods ∧ σ'.names = σ.names)
    (hlabels : d.labels.length ≤ e.labels.length) (hfits : σ'.Fits e s₁.loops) :
    Ends (assemble c) s₁ (fun y s₂ => y = x ∧ s.Goes o ks added s₂ σ' e ms) E := by
  have hat := h.here
  have hsteady := hat.steady
  obtain ⟨ids, hids⟩ := List.head?_eq_some_iff.mp hsteady.current
  have hopened : o.opened = σ.method :: ids := hsteady.opened.trans hids
  have hshows := hsteady.shows
  simp only [Outline.put, hopened] at hshows
  -- the request is granted, since the method it is for is the innermost open one
  obtain ⟨a', ha', hshows'⟩ := hrun hshows hsteady.draft
  obtain ⟨log, hok⟩ := assemble_ok ha'
  obtain ⟨hmethod, hmethods, hnames⟩ := hsite
  have hput : o.put σ'.method e ms =
      ⟨o.title, (o.drafts.set σ.method d ++ ms).set σ.method e, σ.method :: ids⟩ := by
    simp [Outline.put, hmethod, hopened, h.inside]
  refine ends_of_ok hok ⟨rfl, ⟨⟨hat.ready.settled, hat.ready.quiet, hat.ready.last⟩,
    h.passes.kinds, h.passes.tokens, h.passes.reports⟩, ?_, hmethod ▸ h.inside, h.loops⟩
  rw [hput]
  refine ⟨⟨hshows', hids.symm, ?_, ?_, ?_, hsteady.scopes, List.suffix_refl _⟩,
    hat.entry, hfits, ?_, hat.names.trans hnames.symm,
    ⟨hat.ready.settled, hat.ready.quiet, hat.ready.last⟩⟩
  · rw [hmethod]
    exact hsteady.current
  · -- the draft is the one that has just been put there
    have hlt := h.inside
    simp [hmethod, Nat.lt_add_right, hlt]
  · rw [hmethod]
    exact fun loop hloop => (hsteady.loops loop hloop).mono hlabels
  · rw [hmethods, ← hat.methods]
    simp [Outline.put]

/-- The loops around go where they went, because their labels are older than what is added. -/
theorem exits_grow (locals : List Variable) (code : List Instruction)
    (labels : List (Option Nat)) :
    σ.loop = s₁.loops.head?.map (d.grow locals code labels).exits := by
  rw [h.here.fits.loop]
  cases hhead : s₁.loops.head? with
  | none => rfl
  | some loop =>
    obtain ⟨⟨-, hbreak⟩, -, hcontinue⟩ := h.here.steady.loops loop (List.mem_of_head? hhead)
    simp [Draft.exits, Draft.target_grow hbreak, Draft.target_grow hcontinue]

/-- A request that adds to the current method.  Locals and code move the site, and labels do not. -/
theorem grow_goes {c : Assembler.Call} {x : c.Answer} (locals : List Variable)
    (code : List Instruction) (labels : List (Option Nat))
    (hrun : ∀ {a title drafts ids}, Assembler.Shows a ⟨title, drafts, σ.method :: ids⟩ →
      drafts[σ.method]? = some d →
      ∃ a', c.run a = .ok x a' ∧
        a'.Shows ⟨title, drafts.set σ.method (d.grow locals code labels), σ.method :: ids⟩) :
    Ends (assemble c) s₁ (fun y s₂ => y = x ∧ s.Goes o ks added s₂
      { σ with locals := σ.locals + locals.length, offset := σ.offset + code.length }
      (d.grow locals code labels) ms) E := by
  refine request_goes h _ _ hrun ⟨rfl, rfl, rfl⟩ (by simp [Draft.grow]) ⟨?_, ?_, ?_, ?_⟩
  · exact h.here.fits.returnType
  · simp [Draft.grow, h.here.fits.locals]
  · simp [Draft.grow, h.here.fits.offset]
  · exact exits_grow h locals code labels

/-- A request that adds an instruction to the current method. -/
theorem push_goes {c : Assembler.Call} {x : c.Answer} (i : Instruction)
    (hrun : ∀ {a title drafts ids}, Assembler.Shows a ⟨title, drafts, σ.method :: ids⟩ →
      drafts[σ.method]? = some d →
      ∃ a', c.run a = .ok x a' ∧
        a'.Shows ⟨title, drafts.set σ.method (d.add i), σ.method :: ids⟩) :
    Ends (assemble c) s₁ (fun _ s₂ => s.Goes o ks added s₂ (σ.ahead 1) (d.grow [] [i] []) ms)
      E := by
  have hgrow : d.add i = d.grow [] [i] [] := by simp [Draft.grow, Draft.add]
  exact (grow_goes h [] [i] [] fun hshows hd => hgrow ▸ hrun hshows hd).imp fun _ _ h₂ => h₂.2

/-- An operation is added behind the code of the current method. -/
theorem emit_goes (operation : Operation) :
    Ends (emit operation) s₁ (fun _ s₂ => s.Goes o ks added s₂ (σ.ahead 1)
      (d.grow [] [.plain operation] []) ms) E :=
  push_goes h _ fun hshows hd => Assembler.Call.emit_shows hshows hd operation

/-- A parameter of the current method is loaded, by its number there. -/
theorem loadParameter_goes (ordinal : Nat) :
    Ends (assemble (.loadParameter ⟨σ.method, ordinal⟩)) s₁ (fun _ s₂ =>
      s.Goes o ks added s₂ (σ.ahead 1) (d.grow [] [.plain (.loadArg ordinal)] []) ms) E :=
  push_goes h _ fun hshows hd => Assembler.Call.loadParameter_shows hshows hd ordinal

theorem returnType_goes :
    Ends (assemble .returnType) s₁ (fun ty s₂ => ty = σ.returnType ∧ s.Goes o ks added s₂ σ d ms)
      E := by
  refine (request_goes (x := d.returnType) h σ d (fun hshows hd => ?_) ⟨rfl, rfl, rfl⟩
    (Nat.le_refl _) h.here.fits).imp ?_
  · obtain ⟨a', ha', hshows'⟩ := Assembler.Call.returnType_shows hshows hd
    exact ⟨a', ha', by rwa [set_of_getElem? hd]⟩
  · rintro ty s₂ ⟨rfl, h₂⟩
    exact ⟨h.here.fits.returnType, h₂⟩

/-- A new label is the last one, and has no offset.  The site does not tell it. -/
theorem newLabel_goes : Ends (assemble .newLabel) s₁
    (fun label s₂ => label = ⟨σ.method, d.labels.length⟩ ∧
      s.Goes o ks added s₂ σ (d.grow [] [] [none]) ms) E := by
  refine grow_goes h [] [] [none] fun hshows hd => ?_
  obtain ⟨a', ha', hshows'⟩ := Assembler.Call.newLabel_shows hshows hd
  exact ⟨a', ha', by simpa [Draft.grow, Draft.addLabel] using hshows'⟩

/-- A branch to a label goes to its target, which is the label itself as long as it has no
offset. -/
theorem branch_goes {l : Nat} (hl : l < d.labels.length) :
    Ends (assemble (.branch ⟨σ.method, l⟩)) s₁ (fun _ s₂ => s.Goes o ks added s₂ (σ.ahead 1)
      (d.grow [] [.branch (d.target l)] []) ms) E :=
  push_goes h _ fun hshows hd => Assembler.Call.branch_shows hshows hd hl

theorem branchIfFalse_goes {l : Nat} (hl : l < d.labels.length) :
    Ends (assemble (.branchIfFalse ⟨σ.method, l⟩)) s₁ (fun _ s₂ => s.Goes o ks added s₂ (σ.ahead 1)
      (d.grow [] [.branchIfFalse (d.target l)] []) ms) E :=
  push_goes h _ fun hshows hd => Assembler.Call.branchIfFalse_shows hshows hd hl

/-- A label gets the offset of the next instruction, and so do the exits that wait for it. -/
theorem bindLabel_goes {l : Nat} (hl : d.labels[l]? = some none) :
    Ends (assemble (.bindLabel ⟨σ.method, l⟩)) s₁ (fun _ s₂ => s.Goes o ks added s₂
      (σ.redirect l σ.offset) (d.bindLabel l) ms) E := by
  have hfits := h.here.fits
  refine (request_goes h (σ.redirect l σ.offset) (d.bindLabel l)
    (fun hshows hd => Assembler.Call.bindLabel_shows hshows hd hl) ⟨rfl, rfl, rfl⟩
    (by simp [Draft.bindLabel]) ⟨hfits.returnType, hfits.locals, ?_, ?_⟩).imp fun _ _ h₂ => h₂.2
  · exact (List.length_map _).trans hfits.offset
  · show σ.loop.map _ = _
    rw [hfits.loop, Option.map_map]
    congr 1
    funext loop
    simp [Draft.exits, Exits.redirect, Draft.target_bindLabel hl, hfits.offset]

/-- No branch waits for a label that is not there yet.  This is told by the method behind the
draft. -/
theorem target?_ne_pending {i : Instruction} (hi : i ∈ d.code) {l : Nat}
    (hl : d.labels.length ≤ l) : i.target? ≠ some (.pending l) := by
  intro htarget
  obtain ⟨methods, -, hlinked, hdrafts⟩ := h.here.steady.shows
  have hd : d ∈ methods.toList.map Method.draft := by
    rw [hdrafts]
    exact List.mem_of_getElem? h.here.steady.draft
  obtain ⟨m, hm, rfl⟩ := List.mem_map.mp hd
  have hnone := (hlinked m (Array.mem_toList_iff.mp hm)).draft_pending hi htarget
  rw [List.getElem?_eq_none hl] at hnone
  cases hnone

end

/-- Operations behind a fragment, counted by the instructions they take. -/
theorem moves_plain {f : Fragment} {s₂ : State} (operations : List Operation) {n : Nat}
    (hn : operations.length = n)
    (h : s.Goes o ks added s₂ ((σ.past f).ahead n)
      ((d.extend f).grow [] (operations.map .plain) []) (f.methods.map Method.draft)) :
    s.Moves σ o d ks (f ++ .plain operations) added s₂ := by
  subst hn
  rw [State.Moves, Site.past_append, Site.past_plain]
  simpa [Draft.extend, Fragment.plain] using h

theorem emit_moves {f : Fragment} (h : s.Moves σ o d ks f added s₁) (operation : Operation) :
    Ends (emit operation) s₁ (fun _ s₂ => s.Moves σ o d ks (f ++ .plain [operation]) added s₂) E :=
  (emit_goes h operation).imp fun _ _ h₂ => moves_plain [operation] rfl h₂

end Production

end OnePass
