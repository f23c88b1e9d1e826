import OnePass.Proofs.Progress

/-!
# What a match costs

A production that matches has passed a token, and one that does not match has passed
none.  This is what every loop and every level of nesting in the pass rests on: each
round and each level leaves fewer tokens ahead.  Recovering from an error passes a token
as well, unless the input is at its end.

## Main definitions

* `State.Ending` — the last token ahead ends the input.
* `Production.Consumes` — a production passes a token if it matches, and otherwise
  nothing happens.
* `Production.Affirms` — a production goes forward and ends with a match.

## Main results

* `State.length_recover_lt` — **recovering passes a token**, unless at the end.
* `Production.consumes_expression`, `Production.consumes_declaration_and_statement` —
  **every production consumes what it matches**.
-/

namespace OnePass

namespace State

variable {s s' : State}

/-- The last token ahead ends the input.  So any other token can be passed. -/
def Ending (s : State) : Prop := s.kinds.getLast? = some .endOfInput

theorem Ending.of_leads (h : s.Ending) (hleads : s.Leads s') : s'.Ending :=
  hleads.getLast?_kinds.trans h

/-- No production puts a token back, so the tokens ahead never get more. -/
theorem Leads.length_tokens_le (h : s.Leads s') : s'.tokens.length ≤ s.tokens.length :=
  h.tokens_suffix.length_le

theorem length_advance_lt (h : s.Ending) (hk : s.lookahead.kind ≠ .endOfInput) :
    s.advance.tokens.length < s.tokens.length := by
  rw [tokens_advance h hk]
  exact Nat.lt_succ_self _

/-- Recovering passes a token, unless the input is at its end.  This is why a loop that recovers
from errors ends. -/
theorem length_recover_lt (h : s.Ending) (hend : s.atEnd = false) :
    s.recover.tokens.length < s.tokens.length := by
  show (s.skip s.rest).tokens.length < s.tokens.length
  have hk : s.lookahead.kind ≠ .endOfInput := by simpa [atEnd] using hend
  have hadvance := length_advance_lt h hk
  unfold advance at hadvance
  cases hrest : s.rest with
  | nil => simp [hrest] at hadvance
  | cons lexeme rest =>
    simp only [hrest] at hadvance
    -- whether skipping stops at the next token or goes on, one token has been passed
    unfold skip
    rw [if_neg (by simp [hend])]
    split
    · exact hadvance
    · exact Nat.lt_of_le_of_lt (Leads.skip rfl).length_tokens_le hadvance

/-- So does passing over a token that begins no item, whether or not it is reported. -/
theorem length_skipUnexpected_lt (h : s.Ending) (hend : s.atEnd = false) :
    s.skipUnexpected.tokens.length < s.tokens.length := by
  unfold skipUnexpected
  split
  · exact length_recover_lt h hend
  · exact length_recover_lt (s := s.report _) h hend

end State

namespace Production

variable {α β : Type} {matched : α → Bool}

/-! ### The cost of a match -/

/-- A production that passes a token if it matches, and otherwise leaves the state as it was,
save that recovery may be over. -/
def Consumes (matched : α → Bool) (p : Production α) : Prop :=
  ∀ s : State, s.Ending → Ends p s
    (fun a s' => (matched a = true → s'.tokens.length < s.tokens.length) ∧
      (matched a = false → s' = { s with recovering := s'.recovering })) fun _ _ => True

/-- A production that goes forward, and ends with a match if it ends well. -/
structure Affirms (matched : α → Bool) (p : Production α) : Prop where
  onward : Onward p
  answers : ∀ s, Ends p s (fun a _ => matched a = true) fun _ _ => True

theorem Affirms.pure {a : α} (h : matched a = true) : Affirms matched (pure a) :=
  ⟨onward_fine.pure a, fun _ => h⟩

theorem Affirms.bind {p : Production β} {f : β → Production α} (hp : Onward p)
    (hf : ∀ b, Affirms matched (f b)) : Affirms matched (p >>= f) := by
  refine ⟨onward_fine.bind hp fun b => (hf b).onward, fun s => ?_⟩
  refine Ends.bind (ends_of_forall (fun _ _ => trivial) fun _ _ => trivial) ?_
  exact fun b s' (_ : True) => (hf b).answers s'

theorem Affirms.ite {c : Prop} [Decidable c] {p q : Production α} (hp : Affirms matched p)
    (hq : Affirms matched q) : Affirms matched (if c then p else q) := by
  split
  · exact hp
  · exact hq

/-- What is passed by a production that goes forward and ends with a match, if a token has
been passed before it. -/
theorem Affirms.ends {p : Production α} (h : Affirms matched p) {s s₁ : State}
    (hlt : s₁.tokens.length < s.tokens.length) :
    Ends p s₁ (fun a s' => (matched a = true → s'.tokens.length < s.tokens.length) ∧
      (matched a = false → s' = { s with recovering := s'.recovering })) fun _ _ => True := by
  refine (h.onward.ends_and (h.answers s₁)).imp ?_
  rintro a s' ⟨hleads, ha⟩
  refine ⟨fun _ => Nat.lt_of_le_of_lt hleads.length_tokens_le hlt, fun hmiss => ?_⟩
  rw [ha] at hmiss
  cases hmiss

namespace Consumes

/-- What never matches does nothing, and so costs nothing. -/
theorem pure {a : α} (h : matched a = false) : Consumes matched (pure a) := by
  intro s _
  refine ⟨fun hmatched => ?_, fun _ => rfl⟩
  rw [h] at hmatched
  cases hmatched

/-- A choice by what another production answers: if it matched, its token has been passed, and
otherwise the choice is made where it began. -/
theorem bind {first : β → Bool} {p : Production β} {f : β → Production α}
    (hp : Consumes first p) (hhit : ∀ b, first b = true → Affirms matched (f b))
    (hmiss : ∀ b, first b = false → Consumes matched (f b)) : Consumes matched (p >>= f) := by
  intro s hs
  refine (hp s hs).bind fun b s₁ h => ?_
  obtain ⟨hlt, heq⟩ := h
  cases hb : first b with
  | true => exact (hhit b hb).ends (hlt hb)
  | false =>
    -- only the mark of a recovery may differ from the state before
    generalize s₁.recovering = recovering at heq
    obtain rfl := heq hb
    exact hmiss b hb { s with recovering } hs

theorem option {p : Production (Option β)} {f : Option β → Production α}
    (hp : Consumes Option.isSome p) (hsome : ∀ b, Affirms matched (f (some b)))
    (hnone : Consumes matched (f none)) : Consumes matched (p >>= f) := by
  refine hp.bind ?_ ?_
  · intro b hb
    obtain ⟨b, rfl⟩ := Option.isSome_iff_exists.mp hb
    exact hsome b
  · intro b hb
    obtain rfl := Option.isSome_eq_false_iff.mp hb |> Option.isNone_iff_eq_none.mp
    exact hnone

theorem bool {p : Production Bool} {f : Bool → Production α} (hp : Consumes id p)
    (htrue : Affirms matched (f true)) (hfalse : Consumes matched (f false)) :
    Consumes matched (p >>= f) := by
  refine hp.bind ?_ ?_
  · rintro b rfl
    exact htrue
  · rintro b rfl
    exact hfalse

theorem view {g : State → β} {f : β → Production α} (h : ∀ b, Consumes matched (f b)) :
    Consumes matched (view g >>= f) :=
  fun s hs => h (g s) s hs

end Consumes

theorem consumes_accept? {select : Token.Kind → Option α} (h : select .endOfInput = none) :
    Consumes Option.isSome (accept? select) := by
  intro s hs
  refine ends_accept? (fun a ha => ⟨fun _ => ?_, nofun⟩) fun _ => ⟨nofun, fun _ => rfl⟩
  obtain ⟨k, hk, hselect⟩ := Option.bind_eq_some_iff.mp ha
  obtain ⟨-, rfl⟩ := State.current?_eq_some.mp hk
  -- the end of the input is never selected, so the token can be passed
  refine State.length_advance_lt hs fun hend => ?_
  rw [hend, h] at hselect
  cases hselect

theorem consumes_accept {kind : Token.Kind} (h : kind ≠ .endOfInput) :
    Consumes id (accept kind) := by
  intro s hs
  refine ends_accept (fun hk => ⟨fun _ => ?_, nofun⟩) fun _ => ⟨nofun, fun _ => rfl⟩
  obtain ⟨-, rfl⟩ := State.current?_eq_some.mp hk
  exact State.length_advance_lt hs h

/-- A form that begins with a token of its own has passed it when it matches. -/
theorem Consumes.accepting {kind : Token.Kind} {p : Production Bool} (h : kind ≠ .endOfInput)
    (hp : Affirms id p) :
    Consumes id (accept kind >>= fun found => if found = true then p else Pure.pure false) :=
  (consumes_accept h).bool hp (.pure rfl)

/-! ### Expressions -/

theorem consumes_primary {options : Options} {expression : Production (Option Ty)}
    (he : Onward expression) : Consumes Option.isSome (primary options expression) := by
  refine .view fun p => (consumes_accept? rfl).option ?_ (.pure rfl)
  intro atom
  cases atom with
  | number value => exact .bind (onward_fine.emit trivial) fun _ => .pure rfl
  | boolean value => exact .bind (onward_fine.emit trivial) fun _ => .pure rfl
  | name name => exact .bind (onward_fine.named options he name p) fun _ => .pure rfl

section

variable {primary : Production (Option Ty)} (ho : Onward primary)
  (hp : Consumes Option.isSome primary) (budget : Nat)
include ho hp

theorem consumes_multiplicative : Consumes Option.isSome (multiplicative budget primary) := by
  refine hp.option (fun left => .ite (.pure rfl) ?_) (.pure rfl)
  have hsimple : ∀ op ty, (multiplicativeOperators.operation op ty).Simple := fun _ _ => trivial
  exact .bind (onward_fine.chain hsimple ho budget left) fun _ => .pure rfl

theorem consumes_firstTerm : Consumes Option.isSome (firstTerm budget primary) := by
  have hterm := onward_fine.multiplicative ho budget
  refine .view fun p => (consumes_accept? rfl).option ?_ (consumes_multiplicative ho hp budget)
  intro sign
  refine .bind (onward_fine.operand hterm) fun term => .bind (onward_fine.signedType p sign term) ?_
  exact fun _ => .bind (onward_fine.emitSign sign) fun _ => .pure rfl

theorem consumes_additive : Consumes Option.isSome (additive budget primary) := by
  refine (consumes_firstTerm ho hp budget).option (fun left => .ite (.pure rfl) ?_) (.pure rfl)
  have hsimple : ∀ op ty, (additiveOperators.operation op ty).Simple := by
    intro op ty
    simp only [additiveOperators]
    split <;> trivial
  have hterm := onward_fine.multiplicative ho budget
  exact .bind (onward_fine.chain hsimple hterm budget left) fun _ => .pure rfl

theorem consumes_relational : Consumes Option.isSome (relational budget primary) := by
  refine (consumes_additive ho hp budget).option (fun left => .ite (.pure rfl) ?_) (.pure rfl)
  exact .bind (onward_fine.comparison ho budget left) fun _ => .pure rfl

end

theorem onward_expression (options : Options) (budget : Nat) : Onward (expression options budget) :=
  (onward_fine.grammar options).expression budget

/-- An expression consumes what it matches, whatever budget there is for nesting. -/
theorem consumes_expression (options : Options) (budget : Nat) :
    Consumes Option.isSome (expression options budget) := by
  cases budget with
  | zero => exact .pure rfl
  | succ budget =>
    -- an operand has been read in front of any operator, so only it has to be looked at
    have he := onward_expression options budget
    exact consumes_relational ((onward_fine.grammar options).primary he)
      (consumes_primary he) budget

/-! ### Statements and declarations -/

theorem consumes_firstOf {forms : List (Production Bool)} (h : ∀ form ∈ forms, Consumes id form) :
    Consumes id (firstOf forms) := by
  induction forms with
  | nil => exact .pure rfl
  | cons form forms ih =>
    obtain ⟨hform, hforms⟩ := List.forall_mem_cons.mp h
    exact hform.bool (.pure rfl) (ih hforms)

theorem consumes_leaveStatement (word : Keyword) (stray : Stray) (target : Loop → Label) :
    Consumes id (leaveStatement word stray target) := by
  refine .view fun p => .accepting (by simp) (.bind (onward_fine.view _) fun loop => ?_)
  cases loop with
  | none => exact ⟨onward_fine.halt _, fun _ => trivial⟩
  | some loop =>
    exact .bind (onward_fine.expect _) fun _ => .bind (onward_fine.assemble (.branch _)) fun _ =>
      .pure rfl

section

variable {options : Options} {expression : Production (Option Ty)}
  {statement item : Production Bool}
  (he : Onward expression) (hs : Onward statement) (hi : Onward item)

include hi in
theorem consumes_block (budget : Nat) : Consumes id (block budget item) :=
  .accepting (by simp) (.bind (onward_fine.repeatedly hi budget) fun _ =>
    .bind (onward_fine.expect _) fun _ => .pure rfl)

include he hs in
theorem consumes_conditional : Consumes id (conditional expression statement) := by
  refine .accepting (by simp) (.bind (onward_fine.condition he) fun _ => ?_)
  refine .bind (onward_fine.assemble .newLabel) fun otherwise => ?_
  refine .bind (onward_fine.assemble (.branchIfFalse otherwise)) fun _ => ?_
  exact .bind (onward_fine.required hs) fun _ =>
    .bind (onward_fine.alternative hs otherwise) fun _ => .pure rfl

include he hs in
theorem consumes_loop : Consumes id (loop expression statement) := by
  refine .accepting (by simp) (.bind (onward_fine.assemble .newLabel) fun continueLabel => ?_)
  refine .bind (onward_fine.assemble .newLabel) fun breakLabel => ?_
  exact .bind (onward_fine.inLoop (onward_fine.rounds he hs _) _) fun _ => .pure rfl

include he in
theorem consumes_returnStatement : Consumes id (returnStatement expression) := by
  refine .accepting (by simp) (.bind onward_fine.returnType fun expected => ?_)
  refine .bind (onward_fine.returnValue he expected) fun _ =>
    .bind (onward_fine.expect _) fun _ => ?_
  exact .bind (onward_fine.emit trivial) fun _ => .pure rfl

theorem consumes_printStatement : Consumes id (printStatement options) := by
  refine .accepting (by simp) (.bind (onward_fine.expect _) fun _ => ?_)
  refine .bind (onward_fine.grammar options).printArgument fun _ => ?_
  exact .bind (onward_fine.expect _) fun _ => .bind (onward_fine.expect _) fun _ => .pure rfl

include hs in
theorem consumes_bugStatement : Consumes id (bugStatement statement) := by
  refine .view fun p => .accepting (by simp) (.bind (onward_fine.required hs) fun _ => ?_)
  exact .bind (onward_fine.expect _) fun _ => .bind (onward_fine.warn p _) fun _ => .pure rfl

theorem consumes_expressionStatement (hc : Consumes Option.isSome expression) :
    Consumes id (expressionStatement expression) :=
  hc.option (fun _ => .bind (mem_ite (onward_fine.pure ()) (onward_fine.emit trivial))
    fun _ => .pure rfl) (.pure rfl)

include he hs hi in
/-- Every form of statement consumes what it matches. -/
theorem consumes_of_mem_statementForms (hc : Consumes Option.isSome expression) (budget : Nat) :
    ∀ form ∈ statementForms options budget expression statement item, Consumes id form := by
  intro form hform
  rcases List.mem_append.mp hform with hform | hform
  · simp only [List.mem_cons, List.not_mem_nil, or_false] at hform
    rcases hform with rfl | rfl | rfl | rfl | rfl | rfl | rfl
    · exact consumes_block hi budget
    · exact consumes_conditional he hs
    · exact consumes_loop he hs
    · exact consumes_expressionStatement hc
    · exact consumes_accept (by simp)
    · exact consumes_printStatement
    · exact consumes_bugStatement hs
  · split at hform
    · simp only [stopStatements, List.mem_cons, List.not_mem_nil, or_false] at hform
      rcases hform with rfl | rfl | rfl
      · exact consumes_returnStatement he
      · exact consumes_leaveStatement _ _ _
      · exact consumes_leaveStatement _ _ _
    · simp at hform

include hi in
theorem consumes_declarationForm (budget : Nat) : Consumes id (declarationForm budget item) :=
  (consumes_accept? rfl).option
    (fun ty => .bind (onward_fine.declarationOf hi budget ty) fun _ => .pure rfl) (.pure rfl)

end

theorem consumes_itemOf {declaration statement : Production Bool} (hd : Consumes id declaration)
    (hs : Consumes id statement) : Consumes id (itemOf declaration statement) := by
  intro s h
  have hforms : Consumes id (firstOf [declaration, statement]) := by
    refine consumes_firstOf fun form hform => ?_
    simp only [List.mem_cons, List.not_mem_nil, or_false] at hform
    rcases hform with rfl | rfl
    · exact hd
    · exact hs
  exact hforms { s with recovering := false } h

/-- Declarations and statements consume what they match. -/
theorem consumes_declaration_and_statement (options : Options) (budget : Nat) :
    Consumes id (declaration options budget) ∧ Consumes id (statement options budget) := by
  cases budget with
  | zero =>
    simp only [declaration, statement]
    exact ⟨.pure rfl, .pure rfl⟩
  | succ budget =>
    have hitem := (onward_fine.grammar options).item budget
    have hstatement := ((onward_fine.grammar options).declaration_and_statement budget).2
    simp only [declaration, statement]
    exact ⟨consumes_declarationForm hitem budget, consumes_firstOf
      (consumes_of_mem_statementForms (onward_expression options (budget + 1)) hstatement hitem
        (consumes_expression options (budget + 1)) budget)⟩

theorem consumes_item (options : Options) (budget : Nat) : Consumes id (item options budget) :=
  consumes_itemOf (consumes_declaration_and_statement options budget).1
    (consumes_declaration_and_statement options budget).2

end Production

end OnePass
