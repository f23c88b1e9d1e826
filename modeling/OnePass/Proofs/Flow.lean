import OnePass.Proofs.Redirect

/-!
# The flow of control

Blocks, conditionals and loops are read as they are meant: whatever tree lies ahead is
read and its fragment is added to the method, and whatever is read without an error is
such a tree.  A branch is written before the place it goes to is known; its label gets an
offset later, and then the branch goes to where the tree means it to go.

## Main definitions

* `Production.Matches` — a production reads items of some kind.

## Main results

* `Production.Matches.firstOf_cons` — forms that begin with different tokens can be tried
  one after the other.
* `Production.matches_block` — blocks are read if items are.
* `Production.matches_conditional`, `Production.matches_loop` — **the branches of a statement
  go where they are meant to go**.
-/

namespace OnePass

/-- The item is a statement. -/
def Item.IsStatement (item : Item) : Prop := ∃ t : Stmt, item = .statement t

/-- An item and the token behind it are two tokens at least. -/
theorem State.two_le_length_tokens {s : State} {i : Item} {items : Items}
    {k : Token.Kind} {rest : List Token.Kind}
    (h : s.kinds = (Items.cons i items).kinds ++ k :: rest) : 2 ≤ s.tokens.length := by
  obtain ⟨k', ks, hks, -⟩ := i.kinds_eq_cons
  have hlength := congrArg List.length h
  simp only [State.kinds, List.length_map, Items.kinds, hks, List.length_append,
    List.length_cons] at hlength
  omega

namespace Production

variable {options : Options} {bound : Nat}

/-! ### Reading items -/

/-- The production reads the items with `P` if there are not more tokens ahead than the bound.
These items begin with one of the tokens `first`, and without such a token nothing happens; an item
that lies ahead is read if it does not go on, and only such items are read without errors.  So the
first token decides whether the production is the one to use. -/
structure Matches (options : Options) (bound : Nat) (first : Token.Kind → Bool) (P : Item → Prop)
    (p : Production Bool) : Prop where
  onward : Onward p
  begins : ∀ {item : Item}, P item → ∃ k rest, item.kinds = k :: rest ∧ first k = true
  refuses : ∀ {s : State}, s.recovering = false → first s.lookahead.kind = false → p s = .ok false s
  complete : ∀ {s : State} {σ : Site} {o : Outline} {d : Draft}, s.At σ o d →
    σ.options = options → s.tokens.length ≤ bound →
    ∀ {item : Item} {k : Token.Kind} {rest : List Token.Kind} {f : Fragment}, P item →
      s.kinds = item.kinds ++ k :: rest → item.goesOn k = false → item.closed = true →
      item.lower? σ = some f →
      Ends p s (fun a s' => a = true ∧ s.Moves σ o d item.kinds f (item.warnings s.tokens) s')
        fun _ _ => False
  sound : ∀ {s : State} {σ : Site} {o : Outline} {d : Draft}, s.At σ o d →
    σ.options = options → s.tokens.length ≤ bound →
    Accepts p s fun a s' => match a with
      | false => s' = s
      | true => ∃ (item : Item) (f : Fragment), P item ∧ item.closed = true ∧
        item.lower? σ = some f ∧ item.goesOn s'.lookahead.kind = false ∧
        s.Moves σ o d item.kinds f (item.warnings s.tokens) s'

/-- A form that is known by its first token goes on behind it, with one token less ahead. -/
theorem ends_of_accept {kind : Token.Kind} (hkind : kind ≠ .endOfInput) {p rest : Production Bool}
    {s : State} {σ : Site} {o : Outline} {d : Draft} {ks : List Token.Kind}
    {Q : Bool → State → Prop} {E : Halt → State → Prop}
    (hp : p s = (do if ← accept kind then rest else return false : Production Bool) s)
    (h : s.At σ o d) (hkinds : s.kinds = kind :: ks)
    (hrest : ∀ {s₁ : State}, s.Goes o [kind] [] s₁ σ d [] →
      s.tokens.length = s₁.tokens.length + 1 → Ends rest s₁ Q E) : Ends p s Q E := by
  unfold Ends
  rw [hp]
  refine (accept_takes h.goes hkind (State.lookahead_of_kinds hkinds)).bind ?_
  rintro _ s₁ ⟨rfl, h₁⟩
  refine hrest h₁ ?_
  have hlength := h₁.passes.length_tokens
  rwa [List.nil_append, List.length_singleton, Nat.add_comm] at hlength

namespace Matches

variable {first first' : Token.Kind → Bool} {P P' : Item → Prop} {p : Production Bool}

/-- Only the items that mean something count, so `P` may be replaced by anything that agrees with it
on those. -/
theorem of_iff (h : Matches options bound first P p)
    (hfirst : ∀ k, first k = true → first' k = true)
    (hbegins : ∀ item, P' item → ∃ k rest, item.kinds = k :: rest ∧ first' k = true)
    (hP : ∀ {item σ f}, σ.options = options → item.lower? σ = some f → (P item ↔ P' item)) :
    Matches options bound first' P' p where
  onward := h.onward
  begins hitem := hbegins _ hitem
  refuses hsettled hlook := by
    refine h.refuses hsettled (Bool.eq_false_iff.mpr fun htrue => ?_)
    simp [hfirst _ htrue] at hlook
  complete {_ _ _ _} hat hoptions hbound {_ _ _ _} hitem hkinds hk hclosed hlower :=
    h.complete hat hoptions hbound ((hP hoptions hlower).mpr hitem) hkinds hk hclosed hlower
  sound hat hoptions hbound := by
    refine (h.sound hat hoptions hbound).mono fun a s' ha => ?_
    cases a with
    | false => exact ha
    | true =>
      obtain ⟨item, f, hitem, hclosed, hlower, hrest⟩ := ha
      exact ⟨item, f, (hP hoptions hlower).mp hitem, hclosed, hlower, hrest⟩

/-- Only states that are not recovering from an error count, so the production may do anything in
the others. -/
theorem congr (h : Matches options bound first P p) {q : Production Bool} (hq : Onward q)
    (heq : ∀ s : State, s.recovering = false → q s = p s) : Matches options bound first P q where
  onward := hq
  begins := h.begins
  refuses hsettled hlook := (heq _ hsettled).trans (h.refuses hsettled hlook)
  complete {s _ _ _} hat hoptions hbound {_ _ _ _} hitem hkinds hk hclosed hlower := by
    unfold Ends
    rw [heq s hat.ready.settled]
    exact h.complete hat hoptions hbound hitem hkinds hk hclosed hlower
  sound {s _ _ _} hat hoptions hbound := by
    unfold Accepts
    rw [heq s hat.ready.settled]
    exact h.sound hat hoptions hbound

/-- If there are no tokens, nothing is read.  There always is one, so that this is never the
case. -/
theorem zero
    (hbegins : ∀ {item : Item}, P item → ∃ k rest, item.kinds = k :: rest ∧ first k = true) :
    Matches options 0 first P (pure false) where
  onward := onward_fine.pure false
  begins := hbegins
  refuses _ _ := rfl
  complete {s _ _ _} _ _ hbound := absurd s.length_tokens_pos (by omega)
  sound {s _ _ _} _ _ hbound := absurd s.length_tokens_pos (by omega)

/-- No form reads no item. -/
theorem firstOf_nil (options : Options) (bound : Nat) :
    Matches options bound (fun _ => false) (fun _ => False) (firstOf []) where
  onward := onward_fine.pure false
  begins := False.elim
  refuses _ _ := rfl
  complete _ _ _ := fun hitem => hitem.elim
  sound _ _ _ := accepts_pure rfl

/-- A form is tried before others that begin with other tokens.  It leaves everything alone if one
of these is ahead, so that the order of the forms does not matter. -/
theorem firstOf_cons {forms : List (Production Bool)} (h : Matches options bound first P p)
    (h' : Matches options bound first' P' (firstOf forms))
    (hdisjoint : ∀ k, first' k = true → first k = false) :
    Matches options bound (fun k => first k || first' k) (fun item => P item ∨ P' item)
      (firstOf (p :: forms)) where
  onward := by
    have := h.onward
    have := h'.onward
    exact onward_fine.bind h.onward fun _ =>
      mem_ite (C := fun _ p => Onward p) (onward_fine.pure true) h'.onward
  begins {item} hitem := by
    rcases hitem with hitem | hitem
    · obtain ⟨k, rest, hkinds, hk⟩ := h.begins hitem
      exact ⟨k, rest, hkinds, by simp [hk]⟩
    · obtain ⟨k, rest, hkinds, hk⟩ := h'.begins hitem
      exact ⟨k, rest, hkinds, by simp [hk]⟩
  refuses {s} hsettled hlook := by
    obtain ⟨hlook, hlook'⟩ := Bool.or_eq_false_iff.mp hlook
    exact bind_eq_ok.mpr ⟨false, s, h.refuses hsettled hlook, h'.refuses hsettled hlook'⟩
  complete {s σ o d} hat hoptions hbound {item k rest f} hitem hkinds hk hclosed hlower := by
    rcases hitem with hitem | hitem
    · refine (h.complete hat hoptions hbound hitem hkinds hk hclosed hlower).bind ?_
      rintro _ s' ⟨rfl, h'⟩
      exact ⟨rfl, h'⟩
    · -- the form is refused by its first token, so the others are tried where it was
      obtain ⟨k', ks, hks, hk'⟩ := h'.begins hitem
      have hahead : s.kinds = k' :: (ks ++ k :: rest) := by rw [hkinds, hks]; rfl
      have hlook := State.lookahead_of_kinds hahead
      have hrefuse := h.refuses hat.ready.settled (hlook ▸ hdisjoint k' hk')
      refine ends_bind.mpr (ends_of_ok hrefuse ?_)
      exact h'.complete hat hoptions hbound hitem hkinds hk hclosed hlower
  sound {s σ o d} hat hoptions hbound := by
    have := h'.onward
    refine (h.sound hat hoptions hbound).then fun a s₁ ha => ?_
    cases a with
    -- the first form has not matched and has left the state alone
    | false =>
      obtain rfl : s₁ = s := ha
      refine (h'.sound hat hoptions hbound).mono fun a s' ha => ?_
      cases a with
      | false => exact ha
      | true =>
        obtain ⟨item, f, hitem, hrest⟩ := ha
        exact ⟨item, f, .inr hitem, hrest⟩
    | true =>
      obtain ⟨item, f, hitem, hrest⟩ := ha
      exact accepts_pure ⟨item, f, .inl hitem, hrest⟩

theorem firstOf_cons_of_kind {kind : Token.Kind} {forms : List (Production Bool)}
    (h : Matches options bound (fun k => k = kind) P p)
    (h' : Matches options bound first' P' (firstOf forms)) (hkind : first' kind = false) :
    Matches options bound (fun k => k = kind || first' k) (fun item => P item ∨ P' item)
      (firstOf (p :: forms)) := by
  refine h.firstOf_cons h' fun k hk => decide_eq_false ?_
  rintro rfl
  simp [hkind] at hk

/-- A form that is known by its first token.  What is left to show is how the tokens behind it are
read, where there is one less of them. -/
theorem of_accept {kind : Token.Kind} (hkind : kind ≠ .endOfInput)
    (rest : Position → Production Bool)
    (hp : ∀ s, p s =
      (do if ← accept kind then rest s.lookahead.position else return false : Production Bool) s)
    (honward : Onward p) (hbegins : ∀ {item}, P item → ∃ ks, item.kinds = kind :: ks)
    (hcomplete : ∀ {s s₁ : State} {σ : Site} {o : Outline} {d : Draft}, s.At σ o d →
      s.Goes o [kind] [] s₁ σ d [] → σ.options = options → s₁.tokens.length ≤ bound →
      ∀ {item : Item} {k : Token.Kind} {ahead : List Token.Kind} {f : Fragment}, P item →
        s.kinds = item.kinds ++ k :: ahead → item.goesOn k = false → item.closed = true →
        item.lower? σ = some f →
        Ends (rest s.lookahead.position) s₁ (fun a s' => a = true ∧
          s.Moves σ o d item.kinds f (item.warnings s.tokens) s') fun _ _ => False)
    (hsound : ∀ {s s₁ : State} {σ : Site} {o : Outline} {d : Draft}, s.At σ o d →
      s.Goes o [kind] [] s₁ σ d [] → σ.options = options → s₁.tokens.length ≤ bound →
      Accepts (rest s.lookahead.position) s₁ fun a s' => a = true ∧
        ∃ (item : Item) (f : Fragment), P item ∧ item.closed = true ∧ item.lower? σ = some f ∧
          item.goesOn s'.lookahead.kind = false ∧
          s.Moves σ o d item.kinds f (item.warnings s.tokens) s') :
    Matches options (bound + 1) (fun k => k = kind) P p where
  onward := honward
  begins hitem := by
    obtain ⟨ks, hks⟩ := hbegins hitem
    exact ⟨kind, ks, hks, by simp⟩
  refuses {s} hsettled hlook := by
    have hne : s.current? ≠ some kind := by
      intro hcurrent
      simp [(State.current?_eq_some.mp hcurrent).2] at hlook
    rw [hp]
    exact bind_eq_ok.mpr ⟨false, s, if_neg hne, rfl⟩
  complete {s σ o d} h hoptions hbound {item k ahead f} hitem hkinds hk hclosed hlower := by
    obtain ⟨ks, hks⟩ := hbegins hitem
    have hahead : s.kinds = kind :: (ks ++ k :: ahead) := by rw [hkinds, hks]; rfl
    refine ends_of_accept hkind (hp s) h hahead fun h₁ hlength => ?_
    exact hcomplete h h₁ hoptions (by omega) hitem hkinds hk hclosed hlower
  sound {s σ o d} h hoptions hbound := by
    unfold Accepts
    rw [hp]
    refine (accept_goes (E := fun _ _ => True) h.goes hkind).then ?_
    rintro (_ | _) s₁ ⟨-, h₁⟩
    · exact accepts_pure h₁
    · have hlength := h₁.passes.length_tokens
      simp only [List.nil_append, List.length_singleton] at hlength
      refine (hsound h h₁ hoptions (by omega)).mono ?_
      rintro _ s' ⟨rfl, ha⟩
      exact ha

end Matches

section

variable {expression : Production (Option Ty)} {statement : Production Bool}

instance {expected : Ty} {mismatch : Ty → ParseError} [he : Onward expression] :
    Onward (expressionOf expected mismatch expression) :=
  onward_fine.expressionOf he expected mismatch

instance [hs : Onward statement] : Onward (required statement) := onward_fine.required hs

instance {otherwise : Label} [hs : Onward statement] : Onward (alternative statement otherwise) :=
  onward_fine.alternative hs otherwise

instance {loop : Loop} [he : Onward expression] [hs : Onward statement] :
    Onward (rounds expression statement loop) := onward_fine.rounds he hs loop

end

/-! ### What is read with what effect -/

/-- The production gives the answer and passes the given tokens.  What is added to the method on the
way, and what is reported, is as `R` says, so that it can be left open which of several fragments it
is. -/
def Yields {α : Type} (p : Production α) (a : α) (s : State) (σ : Site) (o : Outline) (d : Draft)
    (ks : List Token.Kind) (R : Fragment → List Diagnostic → Prop) : Prop :=
  Ends p s (fun b s' => b = a ∧ ∃ f added, R f added ∧ s.Moves σ o d ks f added s')
    fun _ _ => False

/-- It does so in every state at the site with the given tokens ahead.  What has been written so far
does not matter. -/
def YieldsAt {α : Type} (p : Production α) (a : α) (σ : Site) (ts : List Token)
    (ks : List Token.Kind) (R : Fragment → List Diagnostic → Prop) : Prop :=
  ∀ ⦃s : State⦄ ⦃o : Outline⦄ ⦃d : Draft⦄, s.At σ o d → s.tokens = ts → Yields p a s σ o d ks R

theorem YieldsAt.mono {α : Type} {p : Production α} {a : α} {σ : Site} {ts : List Token}
    {ks : List Token.Kind} {R S : Fragment → List Diagnostic → Prop} (h : YieldsAt p a σ ts ks R)
    (hR : ∀ f added, R f added → S f added) : YieldsAt p a σ ts ks S := by
  intro s o d hat htokens
  refine Ends.imp (h hat htokens) ?_
  intro b s' h'
  obtain ⟨hb, f, added, hf, h'⟩ := h'
  exact ⟨hb, f, added, hR f added hf, h'⟩

/-- Just this is added and reported. -/
def Exactly (f : Fragment) (added : List Diagnostic) (g : Fragment) (added' : List Diagnostic) :
    Prop :=
  f = g ∧ added = added'

/-- What is ahead of a later state is ahead of an earlier one, behind the tokens passed in
between. -/
theorem drop_tokens {s s₁ : State} {σ : Site} {o : Outline} {d : Draft} {ms : List Draft}
    {ks : List Token.Kind} {added : List Diagnostic} (h : s.Goes o ks added s₁ σ d ms) (n : Nat) :
    s₁.tokens.drop n = s.tokens.drop (n + ks.length) := by
  rw [h.passes.tokens, List.drop_drop, Nat.add_comm]

theorem kinds_drop (ks : List Token.Kind) {ts : List Token} {rest : List Token.Kind}
    (h : ts.map Token.kind = ks ++ rest) : (ts.drop ks.length).map Token.kind = rest := by
  rw [List.map_drop, h, List.drop_left]

/-- An item that lies ahead is read with its fragment and its warnings. -/
theorem Matches.yieldsAt {first : Token.Kind → Bool} {P : Item → Prop} {p : Production Bool}
    (hp : Matches options bound first P p) {ts : List Token} (hbound : ts.length ≤ bound)
    {item : Item} {k : Token.Kind} {rest : List Token.Kind} (hitem : P item)
    (hkinds : ts.map Token.kind = item.kinds ++ k :: rest) (hk : item.goesOn k = false)
    (hclosed : item.closed = true) {σ : Site} (hoptions : σ.options = options) {f : Fragment}
    (hlower : item.lower? σ = some f) :
    YieldsAt p true σ ts item.kinds (Exactly f (item.warnings ts)) := by
  intro s o d h htokens
  subst htokens
  refine (hp.complete h hoptions hbound hitem hkinds hk hclosed hlower).imp ?_
  intro a s' h'
  obtain ⟨ha, h'⟩ := h'
  exact ⟨ha, f, _, ⟨rfl, rfl⟩, h'⟩

/-! ### Steps between two changes of the state -/

section

variable {α : Type} {s : State} {enter leave : State → State} {step : Production α}
  {Q : α → State → Prop}

/-- A step after a change of the state, which is taken back behind it, also if the step is ended
early. -/
theorem bracket_ends (h : Ends step (enter s) (fun a s' => Q a (leave s')) fun _ _ => False) :
    Ends (do modify enter; ensuring step (modify leave)) s Q fun _ _ => False :=
  ends_bind.mpr (ends_modify.mpr (Ends.ensuring h.safely))

theorem bracket_accepts (hleave : Adjusts leave)
    (h : Accepts step (enter s) fun a s' => Q a (leave s')) :
    Accepts (do modify enter; ensuring step (modify leave)) s Q := by
  have : Onward (modify leave) := onward_fine.adjust hleave
  refine accepts_modify (h.ensuring fun a s' hQ => ?_)
  exact Ends.accepts (E := fun _ _ => True) (ends_modify.mpr hQ)

end

/-! ### Required statements -/

section

variable {statement : Production Bool} {s : State} {σ : Site} {o : Outline} {d : Draft}

/-- A statement that is there is read, and no error is reported for it. -/
theorem Yields.required {ks : List Token.Kind} {R : Fragment → List Diagnostic → Prop}
    (h : Yields statement true s σ o d ks R) :
    Ends (required statement) s (fun _ s' => ∃ f added, R f added ∧ s.Moves σ o d ks f added s')
      fun _ _ => False := by
  refine Ends.bind h ?_
  intro a s' h'
  obtain ⟨ha, h'⟩ := h'
  rw [ha]
  exact h'

variable {first : Token.Kind → Bool} (hs : Matches options bound first Item.IsStatement statement)
  (h : s.At σ o d) (hoptions : σ.options = options) (hbound : s.tokens.length ≤ bound)
include hs h hoptions hbound

theorem required_accepts : Accepts (required statement) s fun _ s' =>
    ∃ (t : Stmt) (f : Fragment), t.closed = true ∧ t.lower? σ = some f ∧
      t.goesOn s'.lookahead.kind = false ∧ s.Moves σ o d t.kinds f (t.warnings s.tokens) s' := by
  refine (hs.sound h hoptions hbound).then fun a s' ha => ?_
  cases a with
  | false =>
    obtain rfl : s' = s := ha
    exact accepts_errorAt (f := pure) h.ready.settled _ _
  | true =>
    obtain ⟨_, f, ⟨t, rfl⟩, ha⟩ := ha
    exact accepts_pure ⟨t, f, ha⟩

end

/-! ### Blocks -/

section

variable {first : Token.Kind → Bool} {item : Production Bool}
  (hi : Matches options bound first (fun _ => True) item)
include hi

omit hi in
/-- The first of the items that lie ahead is followed by the next one, or by a token that ends them
all.  In either case it does not go on. -/
theorem Items.next_of_closed {k : Token.Kind} (hends : ∀ item : Item, item.goesOn k = false)
    {i : Item} {items : Items} (hclosed : (Items.cons i items).closed = true)
    (rest : List Token.Kind) :
    ∃ k' rest', (Items.cons i items).kinds ++ k :: rest = i.kinds ++ k' :: rest' ∧
      i.goesOn k' = false := by
  simp only [Items.closed, Bool.and_eq_true, Bool.not_eq_true'] at hclosed
  obtain ⟨⟨hnext, -⟩, -⟩ := hclosed
  -- behind the last item comes the token that ends them all
  cases hks : items.kinds with
  | nil => exact ⟨k, rest, by simp [Items.kinds, hks], hends i⟩
  | cons k' ks =>
    rw [hks] at hnext
    exact ⟨k', ks ++ k :: rest, by simp [Items.kinds, hks], hnext⟩

/-- The first of the items that lie ahead is read, and the others are still ahead, at the site
behind it. -/
theorem Matches.complete_cons {k : Token.Kind} {rest : List Token.Kind}
    (hends : ∀ item : Item, item.goesOn k = false) {s : State} {σ : Site} {o : Outline} {d : Draft}
    {i : Item} {items : Items} {f : Fragment} (h : s.At σ o d) (hoptions : σ.options = options)
    (hbound : s.tokens.length ≤ bound) (hkinds : s.kinds = (Items.cons i items).kinds ++ k :: rest)
    (hclosed : (Items.cons i items).closed = true)
    (hlower : (Items.cons i items).lower? σ = some f) :
    Ends item s (fun a s₁ => a = true ∧ ∃ g g' : Fragment, g ++ g' = f ∧ items.closed = true ∧
      items.lower? (σ.past g) = some g' ∧ s₁.kinds = items.kinds ++ k :: rest ∧
      s₁.tokens.length < s.tokens.length ∧
      s.Moves σ o d i.kinds g (i.warnings s.tokens) s₁) fun _ _ => False := by
  obtain ⟨g, hg, g', hg', hf⟩ := Items.lower?_cons.mp hlower
  obtain ⟨k', rest', hrest, hk'⟩ := Items.next_of_closed hends hclosed rest
  simp only [Items.closed, Bool.and_eq_true] at hclosed
  obtain ⟨⟨-, hclosed⟩, hclosed'⟩ := hclosed
  refine (hi.complete h hoptions hbound trivial (hkinds.trans hrest) hk' hclosed hg).imp ?_
  rintro _ s₁ ⟨rfl, h₁⟩
  have hlength := h₁.passes.length_tokens
  obtain ⟨k₁, ks₁, hks₁, -⟩ := i.kinds_eq_cons
  rw [hks₁, List.length_cons] at hlength
  refine ⟨rfl, g, g', hf, hclosed', hg', ?_, by omega, h₁⟩
  exact h₁.passes.kinds_eq (by rw [hkinds, Items.kinds, List.append_assoc])

omit hi in
/-- An item that does not go on with the token behind it can stand before the items that begin
there. -/
theorem Items.closed_cons {s s₁ : State} {i : Item} {items : Items} {added : List Diagnostic}
    (hnext : i.goesOn s.lookahead.kind = false) (hclosed : i.closed = true)
    (hclosed' : items.closed = true) (h : s.Passes items.kinds added s₁) :
    (Items.cons i items).closed = true := by
  have hnext' : i.goesOn (items.kinds.head?.getD (.symbol .rightBrace)) = false := by
    cases hks : items.kinds with
    | nil => exact i.goesOn_rightBrace
    | cons k ks =>
      have hkinds := h.kinds
      rw [hks] at hkinds
      rw [State.lookahead_of_kinds hkinds] at hnext
      exact hnext
  simp [Items.closed, hclosed, hclosed', hnext']

/-- Items that lie ahead are read up to a token that ends them all.  By induction on the budget,
which every item that is read brings down by one at least. -/
theorem repeatedly_goes {k : Token.Kind} {rest : List Token.Kind} (hfirst : first k = false)
    (hends : ∀ item : Item, item.goesOn k = false) {budget : Nat} :
    ∀ {s : State} {σ : Site} {o : Outline} {d : Draft} {items : Items} {f : Fragment},
      s.At σ o d → σ.options = options → s.tokens.length ≤ bound → s.tokens.length ≤ budget + 1 →
      s.kinds = items.kinds ++ k :: rest → items.closed = true → items.lower? σ = some f →
      Ends (repeatedly item budget) s
        (fun _ s' => s.Moves σ o d items.kinds f (items.warnings s.tokens) s')
        fun _ _ => False := by
  induction budget with
  | zero =>
    intro s σ o d items f h hoptions hbound hbudget hkinds hclosed hlower
    cases items with
    | nil =>
      cases hlower
      have hlook := State.lookahead_of_kinds hkinds
      exact ends_bind.mpr (ends_of_ok (hi.refuses h.ready.settled (hlook ▸ hfirst)) h.moves)
    | cons i items =>
      -- an item is ahead, and a token behind it, which is more than the budget allows
      have hlength := State.two_le_length_tokens hkinds
      omega
  | succ budget ih =>
    intro s σ o d items f h hoptions hbound hbudget hkinds hclosed hlower
    cases items with
    | nil =>
      cases hlower
      have hlook := State.lookahead_of_kinds hkinds
      exact ends_bind.mpr (ends_of_ok (hi.refuses h.ready.settled (hlook ▸ hfirst)) h.moves)
    | cons i items =>
      refine (hi.complete_cons hends h hoptions hbound hkinds hclosed hlower).bind ?_
      rintro _ s₁ ⟨rfl, g, g', rfl, hclosed', hlower', hkinds₁, hlt, h₁⟩
      refine (ih h₁.here hoptions (by omega) (by omega) hkinds₁ hclosed' hlower').imp ?_
      intro _ s₂ h₂
      rw [h₁.passes.tokens] at h₂
      exact h₁.trans h₂

/-- Only items are read.  Each of them is followed by the next one, so they make up a list in which
none goes on. -/
theorem repeatedly_accepts {budget : Nat} :
    ∀ {s : State} {σ : Site} {o : Outline} {d : Draft}, s.At σ o d → σ.options = options →
      s.tokens.length ≤ bound →
      Accepts (repeatedly item budget) s fun _ s' => ∃ (items : Items) (f : Fragment),
        items.closed = true ∧ items.lower? σ = some f ∧
        s.Moves σ o d items.kinds f (items.warnings s.tokens) s' := by
  have := hi.onward
  have honward (budget : Nat) : Onward (repeatedly item budget) :=
    onward_fine.repeatedly hi.onward budget
  induction budget with
  | zero =>
    intro s σ o d h hoptions hbound
    refine (hi.sound h hoptions hbound).then fun a s₁ ha => accepts_pure ?_
    cases a with
    | false =>
      obtain rfl : s₁ = s := ha
      exact ⟨.nil, {}, rfl, rfl, h.moves⟩
    | true =>
      -- even without a budget one item is read, and then no other one is tried
      obtain ⟨i, f, -, hclosed, hlower, -, h₁⟩ := ha
      refine ⟨.cons i .nil, f ++ {}, ?_, Items.lower?_cons.mpr ⟨f, hlower, {}, rfl, rfl⟩, ?_⟩
      · simp [Items.closed, Items.kinds, hclosed]
      · simpa [Items.kinds, Items.warnings] using h₁
  | succ budget ih =>
    intro s σ o d h hoptions hbound
    refine (hi.sound h hoptions hbound).then fun a s₁ ha => ?_
    cases a with
    | false =>
      obtain rfl : s₁ = s := ha
      exact accepts_pure ⟨.nil, {}, rfl, rfl, h.moves⟩
    | true =>
      obtain ⟨i, f, -, hclosed, hlower, hnext, h₁⟩ := ha
      have hlength := h₁.passes.length_tokens
      refine (ih h₁.here hoptions (by omega)).mono ?_
      rintro _ s₂ ⟨items, g, hclosed', hlower', h₂⟩
      rw [h₁.passes.tokens] at h₂
      exact ⟨.cons i items, f ++ g, Items.closed_cons hnext hclosed hclosed' h₂.passes,
        Items.lower?_cons.mpr ⟨f, hlower, g, hlower', rfl⟩, h₁.trans h₂⟩

/-- What follows the brace that opens a block. -/
def blockRest (budget : Nat) (item : Production Bool) : Production Bool := do
  repeatedly item budget
  expect .rightBrace
  return true

omit hi in
/-- The items in a block are read up to the brace that closes it. -/
theorem block_goes {budget : Nat} {s s₁ : State} {σ : Site} {o : Outline} {d : Draft}
    {ks rest : List Token.Kind} {R : Fragment → List Diagnostic → Prop}
    (h₁ : s.Goes o [.symbol .leftBrace] [] s₁ σ d [])
    (hkinds : s.kinds = .symbol .leftBrace :: (ks ++ .symbol .rightBrace :: rest))
    (hitems : Yields (repeatedly item budget) () s₁ σ (o.put σ.method d []) d ks R) :
    Ends (blockRest budget item) s₁ (fun a s' => a = true ∧ ∃ f added, R f added ∧
      s.Moves σ o d (.symbol .leftBrace :: ks ++ [.symbol .rightBrace]) f added s')
      fun _ _ => False := by
  refine Ends.bind hitems ?_
  rintro _ s₂ ⟨-, f, added, hf, h₂⟩
  have h₂ := h₁.trans h₂ rfl
  have hmark := State.lookahead_of_kinds (h₂.passes.kinds_eq (by simpa using hkinds))
  refine (expect_goes h₂ hmark).bind fun _ s₃ h₃ => ⟨rfl, f, added, hf, ?_⟩
  simpa using h₃.behind

/-- Items in braces are read if items are.  No item begins with a closing brace, so that they are
read up to it. -/
theorem matches_block {budget : Nat} (hbrace : first (.symbol .rightBrace) = false)
    (hbudget : bound ≤ budget + 1) :
    Matches options (bound + 1) (fun k => k = .symbol .leftBrace)
      (fun i => ∃ items, i = .statement (.block items)) (block budget item) := by
  have := hi.onward
  refine .of_accept (by simp) (fun _ => blockRest budget item)
    (fun _ => rfl) (onward_fine.block hi.onward budget) ?_ ?_ ?_
  · rintro _ ⟨items, rfl⟩
    exact ⟨_, rfl⟩
  · rintro s s₁ σ o d h h₁ hoptions hbound _ k ahead f ⟨items, rfl⟩ hkinds hk hclosed hlower
    have hkinds : s.kinds = .symbol .leftBrace ::
        (items.kinds ++ .symbol .rightBrace :: (k :: ahead)) := by
      simpa [Item.kinds, Stmt.kinds] using hkinds
    have hitems : Yields (repeatedly item budget) () s₁ σ (o.put σ.method d []) d items.kinds
        (Exactly f (items.warnings s₁.tokens)) :=
      (repeatedly_goes hi hbrace Item.goesOn_rightBrace h₁.here hoptions hbound (by omega)
        (h₁.passes.kinds_eq hkinds) hclosed hlower).imp
        fun _ s₂ h₂ => ⟨rfl, f, _, ⟨rfl, rfl⟩, h₂⟩
    refine (block_goes h₁ hkinds hitems).imp ?_
    rintro a s₂ ⟨ha, _, _, ⟨rfl, rfl⟩, h₂⟩
    rw [h₁.passes.tokens] at h₂
    exact ⟨ha, h₂⟩
  · intro s s₁ σ o d h h₁ hoptions hbound
    refine (repeatedly_accepts hi h₁.here hoptions hbound).then ?_
    rintro _ s₂ ⟨items, f, hclosed, hlower, h₂⟩
    refine (expect_accepts (h₁.trans h₂ rfl) .rightBrace).then fun _ s₃ h₃ => accepts_pure ?_
    refine ⟨rfl, .statement (.block items), f, ⟨items, rfl⟩, hclosed, hlower, rfl, ?_⟩
    rw [h₁.passes.tokens] at h₃
    simpa [Item.kinds, Stmt.kinds, Item.warnings, Stmt.warnings] using h₃.behind

end

/-! ### Conditions -/

section

variable {expression : Production (Option Ty)} (he : Reads options bound .relation expression)
  {s : State} {σ : Site} {o : Outline} {d : Draft} (h : s.At σ o d)
  (hoptions : σ.options = options) (hbound : s.tokens.length ≤ bound)
include he h hoptions hbound

/-- An expression of an accepted type is read, and nothing is reported. -/
theorem expressionOf_goes {expected : Ty} {e : Expr .relation} {k : Token.Kind}
    {rest : List Token.Kind} {code : List Operation} (mismatch : Ty → ParseError)
    (hkinds : s.kinds = e.kinds ++ k :: rest) (hk : e.goesOn k = false)
    (hlower : e.lowerTo? σ expected = some code) :
    Ends (expressionOf expected mismatch expression) s
      (fun _ s' => s.Moves σ o d e.kinds (.plain code) [] s') fun _ _ => False := by
  obtain ⟨found, hlower, haccepts⟩ := Expr.lowerTo?_eq_some.mp hlower
  refine ends_bind.mpr (ends_view.mpr
    ((he.complete h hoptions hbound hkinds hk hlower).bind ?_))
  rintro _ s₁ ⟨rfl, h₁⟩
  show Ends (check (expected.accepts found) _ _) s₁ _ _
  rw [haccepts]
  exact h₁

theorem expressionOf_accepts {expected : Ty} (mismatch : Ty → ParseError) :
    Accepts (expressionOf expected mismatch expression) s fun _ s' =>
      ∃ (e : Expr .relation) (code : List Operation), e.lowerTo? σ expected = some code ∧
        e.goesOn s'.lookahead.kind = false ∧ s.Moves σ o d e.kinds (.plain code) [] s' := by
  refine accepts_view ((he.sound h hoptions hbound).bind fun a s₁ h₁ => ?_)
  cases a with
  -- without an expression an error is reported, and then nothing is accepted
  | none =>
    refine .of_clean fun hclean => ?_
    obtain rfl : s₁ = s := h₁ hclean
    exact accepts_errorAt (f := pure) h.ready.settled _ _
  | some found =>
    refine .of_clean fun hclean => ?_
    obtain ⟨e, code, hlower, hnext, h₁⟩ := h₁ hclean
    refine (check_accepts h₁.here.ready.settled).mono ?_
    rintro _ _ ⟨haccepts, rfl⟩
    exact ⟨e, code, Expr.lowerTo?_eq_some.mpr ⟨found, hlower, haccepts⟩, hnext, h₁⟩

/-- A condition that lies ahead is read, between its parentheses. -/
theorem condition_goes {e : Expr .relation} {rest : List Token.Kind} {code : List Operation}
    (hkinds : s.kinds = e.conditionKinds ++ rest) (hlower : e.lowerTo? σ .bool = some code) :
    Ends (condition expression) s
      (fun _ s' => s.Moves σ o d e.conditionKinds (.plain code) [] s') fun _ _ => False := by
  have hkinds : s.kinds =
      [.symbol .leftParen] ++ (e.kinds ++ .symbol .rightParen :: rest) := by
    simpa [Expr.conditionKinds] using hkinds
  refine (expect_goes h.goes (State.lookahead_of_kinds hkinds)).bind fun _ s₁ h₁ => ?_
  have hlength := h₁.passes.length_tokens
  refine (expressionOf_goes he h₁.here hoptions (by omega) _ (h₁.passes.kinds_eq hkinds)
    e.goesOn_rightParen hlower).bind fun _ s₂ h₂ => ?_
  have h₂ := h₁.trans h₂ rfl
  have hmark := State.lookahead_of_kinds (h₂.passes.kinds_eq (by simpa using hkinds))
  refine (expect_goes h₂ hmark).imp fun _ s₃ h₃ => ?_
  simpa [Expr.conditionKinds] using h₃.behind

theorem condition_accepts : Accepts (condition expression) s fun _ s' =>
    ∃ (e : Expr .relation) (code : List Operation), e.lowerTo? σ .bool = some code ∧
      s.Moves σ o d e.conditionKinds (.plain code) [] s' := by
  have := he.onward
  refine (expect_accepts h.goes .leftParen).then fun _ s₁ h₁ => ?_
  have hlength := h₁.passes.length_tokens
  refine (expressionOf_accepts he h₁.here hoptions (by omega) _).then ?_
  rintro _ s₂ ⟨e, code, hlower, -, h₂⟩
  refine (expect_accepts (h₁.trans h₂ rfl) .rightParen).mono fun _ s₃ h₃ => ?_
  exact ⟨e, code, hlower, by simpa [Expr.conditionKinds] using h₃.behind⟩

end

/-! ### Conditionals -/

/-- A branch forward goes to where its label gets its offset.  Until then it stands in the code with
its label, as does every other branch that waits for this one. -/
theorem bindForward_goes {s s₁ : State} {ks : List Token.Kind} {added : List Diagnostic}
    {o : Outline} {σ : Site} {d : Draft} {ms : List Draft} {E : Halt → State → Prop} {l : Nat}
    {branch : Target → Instruction} {operations : List Operation} {f : Fragment}
    {code : List Instruction} {labels : List (Option Nat)} (hl : d.labels.length = l)
    (hcode : ∀ i ∈ d.code, i.target? ≠ some (.pending l)) (hbranch : Instruction.IsBranch branch)
    (h : s.Goes o ks added s₁ σ (((d.grow [] (operations.map .plain ++ [branch (.pending l)])
      [none]).extend f).grow [] code labels) ms) :
    Ends (assemble (.bindLabel ⟨σ.method, l⟩)) s₁ (fun _ s₂ => s.Goes o ks added s₂
      (σ.redirect l σ.offset)
      ((d.extend (.jump operations (branch (.offset σ.offset)) [σ.offset] ++
        f.redirect l σ.offset)).grow [] (code.map (Instruction.redirect l σ.offset)) labels) ms)
      E := by
  have hoffset := h.here.fits.offset
  -- the label gets the offset that the code has by now
  have hafter : d.code.length + (operations.length + 1 + f.code.length + code.length) =
      σ.offset := by
    rw [← hoffset]
    simp only [Draft.grow, Draft.extend, List.length_append, List.length_map, List.length_singleton]
    omega
  have hnone : (((d.grow [] (operations.map .plain ++ [branch (.pending l)]) [none]).extend f).grow
      [] code labels).labels[l]? = some none := by
    subst hl
    simp [Draft.grow, Draft.extend]
  refine (bindLabel_goes h hnone).imp fun _ s₂ h₂ => ?_
  rwa [Draft.bindLabel_forward hl hcode hbranch operations f code labels hafter] at h₂

/-- The branch over the body of a conditional. -/
def skip : Production Label := do
  let otherwise ← assemble .newLabel
  assemble (.branchIfFalse otherwise)
  return otherwise

/-- The branch over the alternative of a conditional, which begins behind it. -/
def leap (otherwise : Label) : Production Label := do
  let after ← assemble .newLabel
  assemble (.branch after)
  let _ ← assemble (.bindLabel otherwise)
  return after

instance : Onward skip :=
  onward_fine.bind (onward_fine.assemble .newLabel) fun _ =>
    onward_fine.bind (onward_fine.assemble (.branchIfFalse _)) fun _ => onward_fine.pure _

/-- The condition of a conditional and its body, with the branch over the body.  Where that goes is
left open. -/
def guarded (expression : Production (Option Ty)) (statement : Production Bool) :
    Production Label := do
  condition expression
  let otherwise ← skip
  required statement
  return otherwise

theorem conditional_eq (expression : Production (Option Ty)) (statement : Production Bool) :
    conditional expression statement = (do
      if ← accept (.keyword .if) then
        let otherwise ← guarded expression statement
        alternative statement otherwise
        return true
      else return false) := by
  simp [conditional, guarded, skip]

theorem alternative_eq (statement : Production Bool) (otherwise : Label) :
    alternative statement otherwise = (do
      if ← accept (.keyword .else) then
        let after ← leap otherwise
        required statement
        let _ ← assemble (.bindLabel after)
      else
        let _ ← assemble (.bindLabel otherwise)) := by
  simp [alternative, leap]

section

variable {s s₁ : State} {ks : List Token.Kind} {added : List Diagnostic} {o : Outline} {σ : Site}
  {d : Draft} {ms : List Draft} {E : Halt → State → Prop}

/-- The branch over the body waits for its label. -/
theorem skip_goes {code : List Operation}
    (h : s.Goes o ks added s₁ (σ.past (.plain code)) (d.extend (.plain code)) ms) :
    Ends skip s₁ (fun otherwise s₂ => otherwise = ⟨σ.method, d.labels.length⟩ ∧
      s.Goes o ks added s₂ (σ.ahead (code.length + 1))
        (d.grow [] (code.map .plain ++ [.branchIfFalse (.pending d.labels.length)]) [none]) ms)
      E := by
  have hextend : d.extend (.plain code) = d.grow [] (code.map .plain) [] := rfl
  rw [hextend, Site.past_plain] at h
  refine (newLabel_goes h).bind ?_
  rintro _ s₂ ⟨rfl, h₂⟩
  have hlabels : (d.grow [] (code.map .plain) []).labels.length = d.labels.length := by
    simp [Draft.grow]
  rw [hlabels]
  -- the label is the new one, which has no offset yet
  have hlt : d.labels.length <
      ((d.grow [] (code.map .plain) []).grow [] [] [none]).labels.length := by
    simp [Draft.grow]
  have htarget : ((d.grow [] (code.map .plain) []).grow [] [] [none]).target d.labels.length =
      .pending d.labels.length := Draft.target_of_none (by simp [Draft.grow])
  refine (branchIfFalse_goes h₂ hlt).bind fun _ s₃ h₃ => ⟨rfl, ?_⟩
  rw [htarget] at h₃
  simpa using h₃

variable (h₀ : s.At σ o d)
include h₀

/-- A branch forward behind a fragment, over another one.  Neither of the two has branches that wait
for the same label, so only this one is changed. -/
theorem bindForward_moves {F f : Fragment} {branch : Target → Instruction}
    {operations : List Operation} {l after : Nat} (hF : F.Before d.labels.length)
    (hf : f.Before d.labels.length) (hbranch : Instruction.IsBranch branch)
    (hl : (d.extend F).labels.length = l)
    (hafter : σ.offset + F.code.length + operations.length + 1 + f.code.length = after)
    (h : s.Goes o ks added s₁ (((σ.past F).ahead (operations.length + 1)).past f)
      (((d.extend F).grow [] (operations.map .plain ++ [branch (.pending l)]) [none]).extend f)
      (F.methods.map Method.draft ++ f.methods.map Method.draft)) :
    Ends (assemble (.bindLabel ⟨σ.method, l⟩)) s₁ (fun _ s₂ => s.Moves σ o d ks
      (F ++ .jump operations (branch (.offset after)) [after] ++ f) added s₂) E := by
  have hle : d.labels.length ≤ l := by
    rw [← hl]
    simp [Draft.extend, Draft.grow]
  have hcode : ∀ i ∈ (d.extend F).code, i.target? ≠ some (.pending l) := by
    intro i hi
    rcases List.mem_append.mp hi with hi | hi
    · exact target?_ne_pending h₀.goes hi hle
    · exact hF.target?_ne hle hi
  have hoffset : (((σ.past F).ahead (operations.length + 1)).past f).offset = after := by
    rw [← hafter]
    simp only [Site.past, Site.ahead, Site.declare]
    omega
  rw [← Draft.grow_nil (Draft.extend _ f)] at h
  refine (bindForward_goes hl hcode hbranch h).imp fun _ s₂ h₂ => ?_
  -- the loops around are not left by way of this label
  have hsite : (((σ.past F).ahead (operations.length + 1)).past f).redirect l after =
      ((σ.past F).ahead (operations.length + 1)).past f :=
    congrArg (fun σ : Site => ((σ.past F).ahead (operations.length + 1)).past f)
      (h₀.before l after hle)
  rw [hoffset, hsite, hf l after hle] at h₂
  simpa [State.Moves] using h₂

/-- A conditional with an alternative ends where the branch over the alternative goes. -/
theorem bindLeap_moves {F f : Fragment} {l : Nat} (hF : F.Before d.labels.length)
    (hf : f.Before d.labels.length) (hl : (d.extend F).labels.length = l)
    (h : s.Goes o ks added s₁ (((σ.past F).ahead 1).past f)
      (((d.extend F).grow [] [.branch (.pending l)] [none]).extend f)
      (F.methods.map Method.draft ++ f.methods.map Method.draft)) :
    Ends (assemble (.bindLabel ⟨σ.method, l⟩)) s₁ (fun _ s₂ =>
      s.Moves σ o d ks (F ++ (σ.past F).leap f.code.length ++ f) added s₂) E := by
  have h : s.Goes o ks added s₁ (((σ.past F).ahead (([] : List Operation).length + 1)).past f)
      (((d.extend F).grow [] (([] : List Operation).map .plain ++ [.branch (.pending l)])
        [none]).extend f) (F.methods.map Method.draft ++ f.methods.map Method.draft) := h
  exact bindForward_moves h₀ hF hf (.inl rfl) hl rfl h

variable {code : List Operation} {f : Fragment} (hf : f.Before d.labels.length)
  (h : s.Goes o ks added s₁ ((σ.ahead (code.length + 1)).past f)
    ((d.grow [] (code.map .plain ++ [.branchIfFalse (.pending d.labels.length)]) [none]).extend f)
    (f.methods.map Method.draft))
include hf h

/-- A conditional without an alternative ends where its branch goes. -/
theorem bindSkip_moves : Ends (assemble (.bindLabel ⟨σ.method, d.labels.length⟩)) s₁ (fun _ s₂ =>
    s.Moves σ o d ks (σ.skip code f.code.length ++ f) added s₂) E := by
  have hempty : ({} : Fragment).Before d.labels.length := fun _ _ _ => rfl
  refine (bindForward_moves (F := {}) h₀ hempty hf (.inr rfl) (by simp) rfl (by simpa using h)).imp
    fun _ s₂ h₂ => ?_
  simpa [Site.skip] using h₂

/-- An alternative begins where the branch over the body goes, which is behind the branch over the
alternative. -/
theorem leap_goes : Ends (leap ⟨σ.method, d.labels.length⟩) s₁ (fun after s₂ =>
    after = ⟨σ.method, d.labels.length + (f.labels.length + 1)⟩ ∧
    s.Goes o ks added s₂ ((σ.past (σ.skip code (f.code.length + 1) ++ f)).ahead 1)
      ((d.extend (σ.skip code (f.code.length + 1) ++ f)).grow []
        [.branch (.pending (d.labels.length + (f.labels.length + 1)))] [none])
      (f.methods.map Method.draft)) E := by
  refine (newLabel_goes h).bind ?_
  rintro _ s₂ ⟨rfl, h₂⟩
  have hlabels : ((d.grow [] (code.map .plain ++ [.branchIfFalse (.pending d.labels.length)])
      [none]).extend f).labels.length = d.labels.length + (f.labels.length + 1) := by
    simp [Draft.extend, Draft.grow]
  rw [hlabels]
  -- the draft is long and only its labels matter for the second branch
  generalize hD : (d.grow [] (code.map .plain ++ [.branchIfFalse (.pending d.labels.length)])
    [none]).extend f = D at h₂ hlabels
  have htarget : (D.grow [] [] [none]).target (d.labels.length + (f.labels.length + 1)) =
      .pending (d.labels.length + (f.labels.length + 1)) :=
    Draft.target_of_none (by simp [Draft.grow, ← hlabels])
  refine (branch_goes h₂ (by simp [Draft.grow, hlabels])).bind fun _ s₃ h₃ => ?_
  rw [htarget, Draft.grow_grow, ← hD] at h₃
  have hcode : ∀ i ∈ d.code, i.target? ≠ some (.pending d.labels.length) :=
    fun i hi => target?_ne_pending h₀.goes hi (Nat.le_refl _)
  refine (bindForward_goes rfl hcode (.inr rfl) h₃).bind fun _ s₄ h₄ => ⟨rfl, ?_⟩
  have hoffset : (((σ.ahead (code.length + 1)).past f).ahead 1).offset =
      σ.offset + code.length + 1 + (f.code.length + 1) := by
    simp only [Site.past, Site.ahead, Site.declare]
    omega
  have hsite (n : Nat) : (((σ.ahead (code.length + 1)).past f).ahead 1).redirect d.labels.length n =
      ((σ.ahead (code.length + 1)).past f).ahead 1 :=
    congrArg (fun σ : Site => ((σ.ahead (code.length + 1)).past f).ahead 1)
      (h₀.before _ n (Nat.le_refl _))
  rw [hsite, hoffset, hf _ _ (Nat.le_refl _)] at h₄
  simpa [Site.skip, Instruction.redirect, Target.redirect] using h₄

/-- Without `else` there is no alternative, and the branch over the body goes to behind it. -/
theorem alternative_skips {statement : Production Bool}
    (helse : s₁.lookahead.kind ≠ .keyword .else) :
    Ends (alternative statement ⟨σ.method, d.labels.length⟩) s₁ (fun _ s₂ =>
      s.Moves σ o d ks (σ.skip code f.code.length ++ f) added s₂) E := by
  refine ends_bind.mpr ((accept_goes h (by simp)).imp ?_)
  rintro (_ | _) s₂ ⟨hlook, h₂⟩
  · subst h₂
    exact (bindSkip_moves h₀ hf h).bind fun _ s₃ h₃ => h₃
  · exact absurd hlook helse

/-- The alternative that follows `else` is read, and the branch over it goes to behind it. -/
theorem alternative_goes {statement : Production Bool} {otherKinds rest : List Token.Kind}
    {R : Fragment → List Diagnostic → Prop}
    (hkinds : s₁.kinds = .keyword .else :: rest)
    (hother : YieldsAt statement true ((σ.past (σ.skip code (f.code.length + 1) ++ f)).ahead 1)
      (s₁.tokens.drop 1) otherKinds R)
    (hR : ∀ {g : Fragment} {added' : List Diagnostic}, R g added' → g.Before d.labels.length) :
    Ends (alternative statement ⟨σ.method, d.labels.length⟩) s₁ (fun _ s₂ =>
      ∃ (g : Fragment) (added' : List Diagnostic), R g added' ∧
        s.Moves σ o d (ks ++ .keyword .else :: otherKinds)
          (σ.skip code (f.code.length + 1) ++ f ++
            (σ.past (σ.skip code (f.code.length + 1) ++ f)).leap g.code.length ++ g)
          (added ++ added') s₂) fun _ _ => False := by
  rw [alternative_eq]
  refine (accept_takes h (by simp) (State.lookahead_of_kinds hkinds)).bind ?_
  rintro _ s₂ ⟨rfl, h₂⟩
  refine (leap_goes h₀ hf h₂).bind ?_
  rintro _ s₃ ⟨rfl, h₃⟩
  have htokens : s₃.tokens = s₁.tokens.drop 1 := by
    rw [h₃.passes.tokens, h.passes.tokens, List.drop_drop, List.length_append]
    rfl
  refine (hother h₃.here htokens).required.bind ?_
  intro _ s₄ h₄
  obtain ⟨g, added', hg, h₄⟩ := h₄
  have h₄ := h₃.trans h₄ rfl
  -- the code so far has no branch that waits for a label made later
  have hF : (σ.skip code (f.code.length + 1) ++ f).Before d.labels.length :=
    .append (fun k n _ => σ.skip_redirect k n _ _) hf
  refine (bindLeap_moves h₀ hF (hR hg) ?_ h₄).bind fun _ s₅ h₅ => ⟨g, added', hg, ?_⟩
  · simp [Draft.extend, Draft.grow, Site.skip, Fragment.jump]
  · simpa using h₅

theorem alternative_accepts {first : Token.Kind → Bool} {statement : Production Bool}
    (hs : Matches options bound first Item.IsStatement statement) (hoptions : σ.options = options)
    (hbound : s₁.tokens.length ≤ bound) :
    Accepts (alternative statement ⟨σ.method, d.labels.length⟩) s₁ fun _ s₂ =>
      (s₁.lookahead.kind ≠ .keyword .else ∧ s₂.lookahead = s₁.lookahead ∧
        s.Moves σ o d ks (σ.skip code f.code.length ++ f) added s₂) ∨
      (s₁.lookahead.kind = .keyword .else ∧ ∃ (other : Stmt) (g : Fragment), other.closed = true ∧
        other.lower? ((σ.past (σ.skip code (f.code.length + 1) ++ f)).ahead 1) = some g ∧
        other.goesOn s₂.lookahead.kind = false ∧
        s.Moves σ o d (ks ++ .keyword .else :: other.kinds)
          (σ.skip code (f.code.length + 1) ++ f ++
            (σ.past (σ.skip code (f.code.length + 1) ++ f)).leap g.code.length ++ g)
          (added ++ other.warnings (s₁.tokens.drop 1)) s₂) := by
  have := hs.onward
  rw [alternative_eq]
  refine (accept_goes (E := fun _ _ => True) h (by simp)).then ?_
  rintro (_ | _) s₂ ⟨helse, h₂⟩
  · subst h₂
    refine (bindSkip_moves (E := fun _ _ => True) h₀ hf h).then fun _ s₃ h₃ =>
      accepts_pure (.inl ?_)
    exact ⟨helse, h₃.passes.lookahead_eq h.passes, h₃⟩
  · have hlength₁ := h.passes.length_tokens
    refine (leap_goes (E := fun _ _ => True) h₀ hf h₂).then ?_
    rintro _ s₃ ⟨rfl, h₃⟩
    have hlength₃ := h₃.passes.length_tokens
    rw [List.length_append] at hlength₃
    refine (required_accepts hs h₃.here hoptions (by omega)).then ?_
    rintro _ s₄ ⟨other, g, hclosed, hlower, hnext, h₄⟩
    have h₄ := h₃.trans h₄ rfl
    have hF : (σ.skip code (f.code.length + 1) ++ f).Before d.labels.length :=
      .append (fun k n _ => σ.skip_redirect k n _ _) hf
    have hg := other.before_of_lower? ((h₀.before.past _).ahead 1) hlower
    refine (bindLeap_moves (E := fun _ _ => True) h₀ hF hg ?_ h₄).then fun _ s₅ h₅ =>
      accepts_pure (.inr ⟨helse, other, g, hclosed, hlower, ?_, ?_⟩)
    · simp [Draft.extend, Draft.grow, Site.skip, Fragment.jump]
    · rwa [h₅.passes.lookahead_eq h₄.passes]
    · have htokens : s₃.tokens = s₁.tokens.drop 1 := by
        rw [h₃.passes.tokens, h.passes.tokens, List.drop_drop, List.length_append]
        rfl
      rw [htokens] at h₅
      simpa using h₅

end

section

variable {first : Token.Kind → Bool} {expression : Production (Option Ty)}
  {statement : Production Bool} (he : Reads options bound .relation expression)
  (hs : Matches options bound first Item.IsStatement statement)
include he hs

section

variable {s s₁ : State} {σ : Site} {o : Outline} {d : Draft} {ks : List Token.Kind}
  (h₁ : s.Goes o ks [] s₁ σ d []) (hoptions : σ.options = options)
  (hbound : s₁.tokens.length ≤ bound)
include h₁ hoptions hbound

omit hs in
/-- The condition and the body are read, and the branch over the body waits for its label.  What
comes then depends on the token behind the body. -/
theorem guarded_goes {c : Expr .relation} {bodyKinds rest : List Token.Kind}
    {code : List Operation} {R : Fragment → List Diagnostic → Prop}
    (hkinds : s.kinds = ks ++ (c.conditionKinds ++ rest)) (hcode : c.lowerTo? σ .bool = some code)
    (hbody : YieldsAt statement true (σ.ahead (code.length + 1))
      (s₁.tokens.drop c.conditionKinds.length) bodyKinds R) :
    Ends (guarded expression statement) s₁ (fun otherwise s₂ =>
      otherwise = ⟨σ.method, d.labels.length⟩ ∧ ∃ f added, R f added ∧
      s.Goes o (ks ++ c.conditionKinds ++ bodyKinds) added s₂
        ((σ.ahead (code.length + 1)).past f)
        ((d.grow [] (code.map .plain ++ [.branchIfFalse (.pending d.labels.length)])
          [none]).extend f)
        (f.methods.map Method.draft)) fun _ _ => False := by
  refine (condition_goes he h₁.here hoptions hbound (h₁.passes.kinds_eq hkinds) hcode).bind
    fun _ s₂ h₂ => ?_
  refine (skip_goes (h₁.trans h₂ rfl)).bind ?_
  rintro _ s₃ ⟨rfl, h₃⟩
  have htokens : s₃.tokens = s₁.tokens.drop c.conditionKinds.length := by
    rw [h₃.passes.tokens, h₁.passes.tokens, List.drop_drop, List.length_append]
  refine (hbody h₃.here htokens).required.bind ?_
  intro _ s₄ h₄
  obtain ⟨f, added, hf, h₄⟩ := h₄
  exact ⟨rfl, f, added, hf, h₃.trans h₄ rfl⟩

theorem guarded_accepts : Accepts (guarded expression statement) s₁ fun otherwise s₂ =>
    ∃ (c : Expr .relation) (body : Stmt) (code : List Operation) (f : Fragment),
      c.lowerTo? σ .bool = some code ∧ body.closed = true ∧
      body.lower? (σ.ahead (code.length + 1)) = some f ∧
      body.goesOn s₂.lookahead.kind = false ∧ otherwise = ⟨σ.method, d.labels.length⟩ ∧
      s.Goes o (ks ++ c.conditionKinds ++ body.kinds)
        (body.warnings (s.tokens.drop (ks ++ c.conditionKinds).length)) s₂
        ((σ.ahead (code.length + 1)).past f)
        ((d.grow [] (code.map .plain ++ [.branchIfFalse (.pending d.labels.length)])
          [none]).extend f)
        (f.methods.map Method.draft) := by
  have := he.onward
  have := hs.onward
  refine (condition_accepts he h₁.here hoptions hbound).then ?_
  rintro _ s₂ ⟨c, code, hcode, h₂⟩
  refine (skip_goes (E := fun _ _ => True) (h₁.trans h₂ rfl)).then ?_
  rintro _ s₃ ⟨rfl, h₃⟩
  have hlength₁ := h₁.passes.length_tokens
  have hlength₃ := h₃.passes.length_tokens
  rw [List.length_append] at hlength₃
  refine (required_accepts hs h₃.here hoptions (by omega)).then ?_
  rintro _ s₄ ⟨body, f, hclosed, hf, hnext, h₄⟩
  rw [h₃.passes.tokens] at h₄
  exact accepts_pure ⟨c, body, code, f, hcode, hclosed, hf, hnext, rfl, h₃.trans h₄ rfl⟩

end

omit he hs in
/-- Where the alternative of a conditional begins. -/
theorem drop_else {s s₁ : State} {σ : Site} {o : Outline} {d : Draft} {ms : List Draft}
    {added : List Diagnostic} {c : Expr .relation} {bodyKinds : List Token.Kind}
    (h : s.Goes o ([.keyword .if] ++ c.conditionKinds ++ bodyKinds) added s₁ σ d ms) :
    s₁.tokens.drop 1 =
      (s.tokens.drop (c.conditionKinds.length + 1)).drop (bodyKinds.length + 1) := by
  rw [h.passes.tokens, List.drop_drop, List.drop_drop]
  simp only [List.length_append, List.length_singleton]
  congr 1
  omega

/-- What follows the keyword of a conditional. -/
def conditionalRest (expression : Production (Option Ty)) (statement : Production Bool) :
    Production Bool := do
  let otherwise ← guarded expression statement
  alternative statement otherwise
  return true

section

variable {s s₁ : State} {σ : Site} {o : Outline} {d : Draft} (h : s.At σ o d)
  (h₁ : s.Goes o [.keyword .if] [] s₁ σ d []) (hoptions : σ.options = options)
  (hbound : s₁.tokens.length ≤ bound) {c : Expr .relation} {code : List Operation}
  (hcode : c.lowerTo? σ .bool = some code) {bodyKinds : List Token.Kind}
  {R : Fragment → List Diagnostic → Prop}
  (hbody : YieldsAt statement true (σ.ahead (code.length + 1))
    (s.tokens.drop (c.conditionKinds.length + 1)) bodyKinds R)
  (hR : ∀ {f : Fragment} {added : List Diagnostic}, R f added → f.Before d.labels.length)
include h h₁ hoptions hbound hcode hbody hR

omit hs in
/-- A conditional without an alternative is read if its condition and its body are, and no `else`
follows. -/
theorem ifThen_goes {k : Token.Kind} {rest : List Token.Kind}
    (hkinds : s.kinds = .keyword .if :: (c.conditionKinds ++ (bodyKinds ++ k :: rest)))
    (helse : k ≠ .keyword .else) :
    Ends (conditionalRest expression statement) s₁ (fun a s' => a = true ∧ ∃ f added, R f added ∧
      s.Moves σ o d (.keyword .if :: (c.conditionKinds ++ bodyKinds))
        (σ.skip code f.code.length ++ f) added s') fun _ _ => False := by
  have hbody' : YieldsAt statement true (σ.ahead (code.length + 1))
      (s₁.tokens.drop c.conditionKinds.length) bodyKinds R := by
    rw [drop_tokens h₁]
    exact hbody
  refine (guarded_goes he h₁ hoptions hbound hkinds hcode hbody').bind ?_
  rintro _ s₂ ⟨rfl, f, added, hf, h₂⟩
  have hlook := State.lookahead_of_kinds (h₂.passes.kinds_eq (by simpa using hkinds))
  refine (alternative_skips h (hR hf) h₂ (hlook ▸ helse)).bind fun _ s₃ h₃ =>
    ⟨rfl, f, added, hf, ?_⟩
  simpa using h₃

omit hs in
/-- A conditional with an alternative is read if its condition and its statements are.  The site of
the alternative depends on the fragment of the body. -/
theorem ifElse_goes {otherKinds rest : List Token.Kind}
    {S : Fragment → Fragment → List Diagnostic → Prop}
    (hkinds : s.kinds = .keyword .if ::
      (c.conditionKinds ++ (bodyKinds ++ .keyword .else :: (otherKinds ++ rest))))
    (hother : ∀ {f : Fragment} {added : List Diagnostic}, R f added →
      YieldsAt statement true ((σ.past (σ.skip code (f.code.length + 1) ++ f)).ahead 1)
        ((s.tokens.drop (c.conditionKinds.length + 1)).drop (bodyKinds.length + 1))
          otherKinds (S f))
    (hS : ∀ {f g : Fragment} {added : List Diagnostic}, S f g added → g.Before d.labels.length) :
    Ends (conditionalRest expression statement) s₁ (fun a s' => a = true ∧ ∃ f added g added',
      R f added ∧ S f g added' ∧
      s.Moves σ o d
        (.keyword .if :: (c.conditionKinds ++ bodyKinds ++ .keyword .else :: otherKinds))
        (σ.skip code (f.code.length + 1) ++ f ++
          (σ.past (σ.skip code (f.code.length + 1) ++ f)).leap g.code.length ++ g)
        (added ++ added') s') fun _ _ => False := by
  have hbody' : YieldsAt statement true (σ.ahead (code.length + 1))
      (s₁.tokens.drop c.conditionKinds.length) bodyKinds R := by
    rw [drop_tokens h₁]
    exact hbody
  refine (guarded_goes he h₁ hoptions hbound hkinds hcode hbody').bind ?_
  rintro _ s₂ ⟨rfl, f, added, hf, h₂⟩
  have hkinds₂ := h₂.passes.kinds_eq (by simpa using hkinds)
  have hother := hother hf
  rw [← drop_else h₂] at hother
  refine (alternative_goes h (hR hf) h₂ hkinds₂ hother hS).bind ?_
  intro _ s₃ h₃
  obtain ⟨g, added', hg, h₃⟩ := h₃
  exact ⟨rfl, f, added, g, added', hf, hg, by simpa using h₃⟩

end

section

variable {s s₁ : State} {σ : Site} {o : Outline} {d : Draft} (h : s.At σ o d)
  (h₁ : s.Goes o [.keyword .if] [] s₁ σ d []) (hoptions : σ.options = options)
  (hbound : s₁.tokens.length ≤ bound)
include h h₁ hoptions hbound

omit h hoptions he hs in
/-- The body of a conditional has fewer tokens ahead than the conditional. -/
theorem length_drop_condition (c : Expr .relation) :
    (s.tokens.drop (c.conditionKinds.length + 1)).length ≤ bound := by
  have hdrop := congrArg List.length (drop_tokens h₁ c.conditionKinds.length)
  simp only [List.length_drop, List.length_singleton] at hdrop ⊢
  omega

theorem branch_complete {c : Expr .relation} {body : Stmt} {k : Token.Kind}
    {ahead : List Token.Kind} {f : Fragment}
    (hkinds : s.kinds = (Stmt.branch c body).kinds ++ k :: ahead)
    (hk : (Stmt.branch c body).goesOn k = false) (hclosed : (Stmt.branch c body).closed = true)
    (hlower : (Stmt.branch c body).lower? σ = some f) :
    Ends (conditionalRest expression statement) s₁ (fun a s' => a = true ∧
      s.Moves σ o d (Stmt.branch c body).kinds f ((Stmt.branch c body).warnings s.tokens) s')
      fun _ _ => False := by
  obtain ⟨code, hcode, g, hg, rfl⟩ := Stmt.lower?_branch.mp hlower
  obtain ⟨helse, hk⟩ : k ≠ .keyword .else ∧ body.goesOn k = false := by
    simpa [Stmt.goesOn] using hk
  have hkinds : s.kinds = .keyword .if :: (c.conditionKinds ++ (body.kinds ++ k :: ahead)) := by
    simpa [Stmt.kinds] using hkinds
  rw [Site.past_skip] at hg
  have hbody := hs.yieldsAt (length_drop_condition h₁ hbound c) ⟨body, rfl⟩
    (kinds_drop (.keyword .if :: c.conditionKinds) hkinds) hk hclosed
    (σ := σ.ahead (code.length + 1)) hoptions hg
  refine (ifThen_goes he h h₁ hoptions hbound hcode hbody ?_ hkinds helse).imp ?_
  · rintro _ _ ⟨rfl, -⟩
    exact body.before_of_lower? (h.before.ahead _) hg
  · rintro a s₂ ⟨ha, _, _, ⟨rfl, rfl⟩, h₂⟩
    -- the branch was laid out by the size of the body, which is the length of its code
    rw [body.length_code hg] at h₂
    exact ⟨ha, h₂⟩

theorem choice_complete {c : Expr .relation} {body other : Stmt} {k : Token.Kind}
    {ahead : List Token.Kind} {f : Fragment}
    (hkinds : s.kinds = (Stmt.choice c body other).kinds ++ k :: ahead)
    (hk : (Stmt.choice c body other).goesOn k = false)
    (hclosed : (Stmt.choice c body other).closed = true)
    (hlower : (Stmt.choice c body other).lower? σ = some f) :
    Ends (conditionalRest expression statement) s₁ (fun a s' => a = true ∧
      s.Moves σ o d (Stmt.choice c body other).kinds f
        ((Stmt.choice c body other).warnings s.tokens) s') fun _ _ => False := by
  obtain ⟨code, hcode, g, hg, g', hg', rfl⟩ := Stmt.lower?_choice.mp hlower
  have hkinds : s.kinds = .keyword .if :: (c.conditionKinds ++
      (body.kinds ++ .keyword .else :: (other.kinds ++ k :: ahead))) := by
    simpa [Stmt.kinds] using hkinds
  obtain ⟨⟨hnext, hclosed⟩, hclosed'⟩ : (body.goesOn (.keyword .else) = false ∧
      body.closed = true) ∧ other.closed = true := by
    simpa [Stmt.closed] using hclosed
  -- the sites of both statements are brought into the form that reading leaves them in
  rw [Site.past_skip] at hg
  rw [← body.length_code hg, Site.past_append _ (_ ++ g), Site.past_leap] at hg'
  have hlength := length_drop_condition h₁ hbound c
  have hkinds' := kinds_drop (.keyword .if :: c.conditionKinds) hkinds
  have hbody := hs.yieldsAt hlength ⟨body, rfl⟩ hkinds' hnext hclosed
    (σ := σ.ahead (code.length + 1)) hoptions hg
  have hlength' : ((s.tokens.drop (c.conditionKinds.length + 1)).drop
      (body.kinds.length + 1)).length ≤ bound := by
    rw [List.length_drop]
    omega
  have hother := hs.yieldsAt hlength' ⟨other, rfl⟩
    (by simpa [Item.kinds] using kinds_drop _ (hkinds'.trans (List.append_cons ..))) hk hclosed'
    (σ := (σ.past (σ.skip code (g.code.length + 1) ++ g)).ahead 1) hoptions hg'
  refine (ifElse_goes (S := fun _ => Exactly g' (other.warnings ((s.tokens.drop
      (c.conditionKinds.length + 1)).drop (body.kinds.length + 1)))) he h h₁ hoptions hbound
    hcode hbody ?_ hkinds ?_ ?_).imp ?_
  · rintro _ _ ⟨rfl, -⟩
    exact body.before_of_lower? (h.before.ahead _) hg
  · rintro _ _ ⟨rfl, -⟩
    exact hother
  · rintro _ _ _ ⟨rfl, -⟩
    exact other.before_of_lower? ((h.before.past _).ahead 1) hg'
  · rintro a s₂ ⟨ha, _, _, _, _, ⟨rfl, rfl⟩, ⟨rfl, rfl⟩, h₂⟩
    rw [body.length_code hg, other.length_code hg'] at h₂
    exact ⟨ha, by simpa [Item.kinds, Stmt.kinds, Item.warnings, Stmt.warnings] using h₂⟩

/-- What is accepted behind the keyword is the rest of a conditional. -/
theorem conditionalRest_accepts :
    Accepts (conditionalRest expression statement) s₁ fun a s' => a = true ∧
      ∃ (item : Item) (f : Fragment), ((∃ c body, item = .statement (.branch c body)) ∨
          ∃ c body other, item = .statement (.choice c body other)) ∧
        item.closed = true ∧ item.lower? σ = some f ∧ item.goesOn s'.lookahead.kind = false ∧
        s.Moves σ o d item.kinds f (item.warnings s.tokens) s' := by
  have := he.onward
  have := hs.onward
  refine (guarded_accepts he hs h₁ hoptions hbound).then ?_
  rintro _ s₂ ⟨c, body, code, f, hcode, hclosed, hf, hnext, rfl, h₂⟩
  have hlength₁ := h₁.passes.length_tokens
  have hlength₂ := h₂.passes.length_tokens
  simp only [List.length_append, List.length_singleton] at hlength₁ hlength₂
  have hbefore := body.before_of_lower? (h.before.ahead _) hf
  rw [← Site.past_skip σ σ code] at hf
  refine (alternative_accepts h hbefore h₂ hs hoptions (by omega)).then fun _ s₃ h₃ =>
    accepts_pure ⟨rfl, ?_⟩
  -- whether there is an alternative is decided by the token behind the body
  rcases h₃ with ⟨helse, hlook, h₃⟩ | ⟨helse, other, g, hclosed', hg, hnext', h₃⟩
  · refine ⟨.statement (.branch c body), _, .inl ⟨c, body, rfl⟩, hclosed,
      Stmt.lower?_branch.mpr ⟨code, hcode, f, hf, rfl⟩, ?_, ?_⟩
    · rw [hlook]
      simp [Item.goesOn, Stmt.goesOn, helse, hnext]
    · simpa [Item.kinds, Stmt.kinds, Item.warnings, Stmt.warnings, body.length_code hf] using h₃
  · rw [helse] at hnext
    have hsize := other.length_code hg
    rw [body.length_code hf] at hg h₃
    rw [← Site.past_leap _ (σ.past (σ.skip code (body.size + 1) ++ f)) other.size,
      ← Site.past_append] at hg
    have hlower := Stmt.lower?_choice.mpr ⟨code, hcode, f, by simpa using hf, g, hg, rfl⟩
    refine ⟨.statement (.choice c body other), _, .inr ⟨c, body, other, rfl⟩, ?_,
      hlower, hnext', ?_⟩
    · simp [Item.closed, Stmt.closed, hnext, hclosed, hclosed']
    · rw [drop_else h₂, hsize] at h₃
      simpa [Item.kinds, Stmt.kinds, Item.warnings, Stmt.warnings] using h₃

end

/-- A conditional is read if its condition and its statements are.  Its branches go over the body
and over the alternative, as the tree means them to. -/
theorem matches_conditional : Matches options (bound + 1) (fun k => k = .keyword .if)
    (fun i => (∃ c body, i = .statement (.branch c body)) ∨
      ∃ c body other, i = .statement (.choice c body other))
    (conditional expression statement) := by
  refine .of_accept (by simp) (fun _ => conditionalRest expression statement)
    (fun _ => congrFun (conditional_eq _ _) _) (onward_fine.conditional he.onward hs.onward) ?_ ?_
    (conditionalRest_accepts he hs)
  · rintro _ (⟨c, body, rfl⟩ | ⟨c, body, other, rfl⟩)
    · exact ⟨_, rfl⟩
    · exact ⟨_, rfl⟩
  · rintro s s₁ σ o d h h₁ hoptions hbound _ k ahead f (⟨c, body, rfl⟩ | ⟨c, body, other, rfl⟩)
      hkinds hk hclosed hlower
    · exact branch_complete he hs h h₁ hoptions hbound hkinds hk hclosed hlower
    · exact choice_complete he hs h h₁ hoptions hbound hkinds hk hclosed hlower

end

/-! ### Loops -/

section

variable {s s₁ : State} {ks : List Token.Kind} {added : List Diagnostic} {o : Outline} {σ : Site}
  {d : Draft} {ms : List Draft} {E : Halt → State → Prop}

/-- The labels of a loop. -/
def loopLabels : Production Loop := do
  let continueLabel ← assemble .newLabel
  let breakLabel ← assemble .newLabel
  return ⟨breakLabel, continueLabel⟩

theorem loop_eq (expression : Production (Option Ty)) (statement : Production Bool) :
    loop expression statement = (do
      if ← accept (.keyword .while) then
        let labels ← loopLabels
        inLoop labels (rounds expression statement labels)
        return true
      else return false) := by
  simp [loop, loopLabels]

/-- Inside a loop its labels have no offsets yet, so the statements that leave a round wait for
them. -/
theorem loopLabels_goes (h : s.Goes o ks added s₁ σ d ms) : Ends loopLabels s₁ (fun labels s₂ =>
    labels = ⟨⟨σ.method, d.labels.length + 1⟩, ⟨σ.method, d.labels.length⟩⟩ ∧
    State.At { s₂ with loops := labels :: s₂.loops }
      (σ.within ⟨.pending (d.labels.length + 1), .pending d.labels.length⟩)
      (o.put σ.method (d.grow [] [] [none, none]) ms) (d.grow [] [] [none, none]) ∧
    s.Goes o ks added s₂ σ (d.grow [] [] [none, none]) ms) E := by
  refine (newLabel_goes h).bind ?_
  rintro _ s₂ ⟨rfl, h₂⟩
  refine (newLabel_goes h₂).bind ?_
  rintro _ s₃ ⟨rfl, h₃⟩
  have hlabels : (d.grow [] [] [none]).labels.length = d.labels.length + 1 := by simp [Draft.grow]
  rw [hlabels]
  have h₃ : s.Goes o ks added s₃ σ (d.grow [] [] [none, none]) ms := by simpa using h₃
  refine ⟨rfl, ?_, h₃⟩
  have hloop : Loop.BelongsTo ⟨⟨σ.method, d.labels.length + 1⟩, ⟨σ.method, d.labels.length⟩⟩
      σ.method (d.grow [] [] [none, none]).labels.length :=
    ⟨⟨rfl, by simp [Draft.grow]⟩, rfl, by simp [Draft.grow]⟩
  have hinside := h₃.here.enterLoop hloop
  have hexits : (d.grow [] [] [none, none]).exits
      ⟨⟨σ.method, d.labels.length + 1⟩, ⟨σ.method, d.labels.length⟩⟩ =
      ⟨.pending (d.labels.length + 1), .pending d.labels.length⟩ := by
    simp [Draft.exits, Draft.target, Draft.grow]
  rwa [hexits] at hinside

/-- Behind a loop, the loops around it are left for what they were left for before. -/
theorem leaveRounds_moves {σ' : Site} {code : List Operation} {f : Fragment} {loop : Loop}
    {s₂ : State} {ks' : List Token.Kind} {added' : List Diagnostic} {l after : Nat}
    (h₀ : s.At σ o d) (h : s.Goes o ks added s₁ σ (d.grow [] [] [none, none]) [])
    (hsite : { σ' with loop := σ.loop } = ((σ.ahead (code.length + 1)).past f).ahead 1)
    (hmethod : σ'.method = σ.method)
    (h' : State.Goes { s₁ with loops := loop :: s₁.loops }
      (o.put σ.method (d.grow [] [] [none, none]) []) ks' added' s₂ σ'
      (d.extend (σ.round code f.code.length ++ f.redirect l after ++ σ.again))
      (f.methods.map Method.draft)) :
    s.Moves σ o d (ks ++ ks') (σ.round code f.code.length ++ f.redirect l after ++ σ.again)
      (added ++ added') { s₂ with loops := s₂.loops.tail } := by
  -- the code of the loop leaves the labels of the loops around it alone
  have hexits := exits_grow h₀.goes
    (σ.round code f.code.length ++ f.redirect l after ++ σ.again).locals
    (σ.round code f.code.length ++ f.redirect l after ++ σ.again).code
    ((σ.round code f.code.length ++ f.redirect l after ++ σ.again).labels.map some)
  rw [← h.loops] at hexits
  have hleave := h.leaveLoop h' hmethod hexits
  rw [hsite] at hleave
  simpa [State.Moves, Site.round, Site.again] using hleave

/-- A loop begins where its condition does: that label has its offset before anything is written. -/
theorem bindRound_goes (hcode : ∀ i ∈ d.code, i.target? ≠ some (.pending d.labels.length))
    (hoffset : d.code.length = σ.offset)
    (h : s.Goes o ks added s₁ (σ.within ⟨.pending (d.labels.length + 1), .pending d.labels.length⟩)
      (d.grow [] [] [none, none]) ms) :
    Ends (assemble (.bindLabel ⟨σ.method, d.labels.length⟩)) s₁ (fun _ s₂ =>
      s.Goes o ks added s₂ (σ.within (σ.pendingExits d.labels.length))
        ((d.extend { labels := [σ.offset] }).grow [] [] [none]) ms) E := by
  have hnone : (d.grow [] [] [none, none]).labels[d.labels.length]? = some none := by
    simp [Draft.grow]
  refine (bindLabel_goes h hnone).imp fun _ s₂ h₂ => ?_
  -- no branch waits for the label yet
  have hdraft : (d.grow [] [] [none, none]).bindLabel d.labels.length =
      (d.extend { labels := [σ.offset] }).grow [] [] [none] := by
    refine (Draft.grow_bindLabel 0 hcode).trans ?_
    simp [Draft.extend, hoffset]
  rw [hdraft] at h₂
  simpa [Site.redirect, Site.within, Exits.redirect, Target.redirect, Site.pendingExits] using h₂

/-- Its body is skipped if the condition fails.  Where the loop ends is not known at this time. -/
theorem exitRound_goes {exits : Exits} {code : List Operation}
    (h : s.Goes o ks added s₁ ((σ.within exits).past (.plain code))
      (((d.extend { labels := [σ.offset] }).grow [] [] [none]).extend (.plain code)) ms) :
    Ends (assemble (.branchIfFalse ⟨σ.method, d.labels.length + 1⟩)) s₁ (fun _ s₂ =>
      s.Goes o ks added s₂ ((σ.within exits).ahead (code.length + 1))
        ((d.extend { labels := [σ.offset] }).grow []
          (code.map .plain ++ [.branchIfFalse (.pending (d.labels.length + 1))]) [none]) ms) E := by
  rw [Site.past_plain] at h
  generalize hD :
    ((d.extend { labels := [σ.offset] }).grow [] [] [none]).extend (.plain code) = D at h
  have hlabels : D.labels = d.labels ++ [some σ.offset, none] := by
    simp [← hD, Draft.extend, Draft.grow, Fragment.plain]
  have htarget : D.target (d.labels.length + 1) = .pending (d.labels.length + 1) :=
    Draft.target_of_none (by simp [hlabels])
  refine (branchIfFalse_goes h (by simp [hlabels])).imp fun _ s₂ h₂ => ?_
  rw [htarget, ← hD] at h₂
  simpa [Draft.extend, Fragment.plain] using h₂

/-- Behind the body a loop goes back to its condition, and there it ends.  Every branch in the body
that leaves the loop gets its offset now. -/
theorem closeRound_goes {code : List Operation} {f : Fragment}
    (hcode : ∀ i ∈ d.code, i.target? ≠ some (.pending (d.labels.length + 1)))
    (h : s.Goes o ks added s₁
      (((σ.within (σ.pendingExits d.labels.length)).ahead (code.length + 1)).past f)
      (((d.extend { labels := [σ.offset] }).grow []
        (code.map .plain ++ [.branchIfFalse (.pending (d.labels.length + 1))])
        [none]).extend f) ms) :
    Ends (do
        assemble (.branch ⟨σ.method, d.labels.length⟩)
        let _ ← assemble (.bindLabel ⟨σ.method, d.labels.length + 1⟩)) s₁ (fun _ s₂ =>
      ∃ σ', { σ' with loop := σ.loop } = ((σ.ahead (code.length + 1)).past f).ahead 1 ∧
        σ'.method = σ.method ∧
        s.Goes o ks added s₂ σ' (d.extend (σ.round code f.code.length ++
          f.redirect (d.labels.length + 1) (σ.offset + code.length + 1 + f.code.length + 1) ++
          σ.again)) ms) E := by
  generalize hD : ((d.extend { labels := [σ.offset] }).grow []
    (code.map .plain ++ [.branchIfFalse (.pending (d.labels.length + 1))]) [none]).extend f = D at h
  have hlabels : D.labels = d.labels ++ some σ.offset :: none :: f.labels.map some := by
    simp [← hD, Draft.extend, Draft.grow]
  -- the branch back has its offset at once
  have htarget : D.target d.labels.length = .offset σ.offset :=
    Draft.target_of_some (by simp [hlabels])
  refine (branch_goes h (by simp [hlabels])).bind fun _ s₂ h₂ => ?_
  rw [htarget, ← hD] at h₂
  have hl : (d.extend { labels := [σ.offset] }).labels.length = d.labels.length + 1 := by
    simp [Draft.extend, Draft.grow]
  have hcode' : ∀ i ∈ (d.extend { labels := [σ.offset] }).code,
      i.target? ≠ some (.pending (d.labels.length + 1)) := by
    simpa [Draft.extend, Draft.grow] using hcode
  -- the label of the end gets its offset behind that branch
  refine (bindForward_goes hl hcode' (.inr rfl) h₂).bind fun _ s₃ h₃ => ?_
  have hoffset : ((((σ.within (σ.pendingExits d.labels.length)).ahead (code.length + 1)).past
      f).ahead 1).offset = σ.offset + code.length + 1 + f.code.length + 1 := by
    simp only [Site.past, Site.ahead, Site.declare, Site.within]
    omega
  rw [hoffset] at h₃
  have hdraft (g : Fragment) (after : Nat) (hafter : after = σ.offset + code.length + 1 +
      f.code.length + 1) : ((d.extend { labels := [σ.offset] }).extend
        (.jump code (.branchIfFalse (.offset after)) [after] ++ g)).grow []
        [.branch (.offset σ.offset)] [] =
      d.extend (σ.round code f.code.length ++ g ++ σ.again) := by
    simp [hafter, Draft.extend, Site.round, Site.again, Fragment.jump]
  refine ⟨_, ?_, ?_, hdraft _ _ rfl ▸ h₃⟩
  · rfl
  · rfl

end

section

variable {first : Token.Kind → Bool} {expression : Production (Option Ty)}
  {statement : Production Bool} (he : Reads options bound .relation expression)
  (hs : Matches options bound first Item.IsStatement statement)
include he hs

section

variable {s : State} {σ : Site} {o : Outline} {d : Draft}
  (hcode : ∀ {l : Nat}, d.labels.length ≤ l → ∀ i ∈ d.code, i.target? ≠ some (.pending l))
  (h : s.At (σ.within ⟨.pending (d.labels.length + 1), .pending d.labels.length⟩) o
    (d.grow [] [] [none, none]))
  (hoptions : σ.options = options) (hbound : s.tokens.length ≤ bound)
include hcode h hoptions hbound

omit hs in
/-- The condition and the body of a loop are read, and it ends behind the branch back.  The steps
are those of the four lemmas before, one after the other. -/
theorem rounds_goes {c : Expr .relation} {bodyKinds rest : List Token.Kind}
    {code : List Operation} {R : Fragment → List Diagnostic → Prop}
    (hkinds : s.kinds = c.conditionKinds ++ rest) (hcondition : c.lowerTo? σ .bool = some code)
    (hbody : YieldsAt statement true
      ((σ.within (σ.pendingExits d.labels.length)).ahead (code.length + 1))
      (s.tokens.drop c.conditionKinds.length) bodyKinds R) :
    Ends (rounds expression statement
        ⟨⟨σ.method, d.labels.length + 1⟩, ⟨σ.method, d.labels.length⟩⟩) s (fun _ s' =>
      ∃ (f : Fragment) (added : List Diagnostic) (σ' : Site), R f added ∧
        { σ' with loop := σ.loop } = ((σ.ahead (code.length + 1)).past f).ahead 1 ∧
        σ'.method = σ.method ∧
        s.Goes o (c.conditionKinds ++ bodyKinds) added s' σ'
          (d.extend (σ.round code f.code.length ++
            f.redirect (d.labels.length + 1) (σ.offset + code.length + 1 + f.code.length + 1) ++
            σ.again)) (f.methods.map Method.draft)) fun _ _ => False := by
  have hoffset : d.code.length = σ.offset := by simpa [Draft.grow, Site.within] using h.fits.offset
  refine (bindRound_goes (hcode (Nat.le_refl _)) hoffset h.goes).bind fun _ s₁ h₁ => ?_
  have hlength₁ := h₁.passes.length_tokens
  rw [← c.lowerTo?_within σ (σ.pendingExits d.labels.length)] at hcondition
  refine (condition_goes he h₁.here hoptions (by omega) (h₁.passes.kinds_eq hkinds) hcondition).bind
    fun _ s₂ h₂ => ?_
  refine (exitRound_goes (h₁.trans h₂ rfl)).bind fun _ s₃ h₃ => ?_
  refine (hbody h₃.here h₃.passes.tokens).required.bind ?_
  intro _ s₄ h₄
  obtain ⟨f, added, hf, h₄⟩ := h₄
  have h₄ := h₃.trans h₄ rfl
  refine (closeRound_goes (hcode (Nat.le_succ _)) h₄).imp ?_
  intro _ s₅ h₅
  obtain ⟨σ', hsite, hmethod, h₅⟩ := h₅
  exact ⟨f, added, σ', hf, hsite, hmethod, h₅⟩

theorem rounds_accepts : Accepts (rounds expression statement
    ⟨⟨σ.method, d.labels.length + 1⟩, ⟨σ.method, d.labels.length⟩⟩) s fun _ s' =>
      ∃ (c : Expr .relation) (body : Stmt) (code : List Operation) (f : Fragment) (σ' : Site),
        c.lowerTo? σ .bool = some code ∧ body.closed = true ∧ body.lower?
          ((σ.within (σ.pendingExits d.labels.length)).ahead (code.length + 1)) = some f ∧
        body.goesOn s'.lookahead.kind = false ∧
        { σ' with loop := σ.loop } = ((σ.ahead (code.length + 1)).past f).ahead 1 ∧
        σ'.method = σ.method ∧
        s.Goes o (c.conditionKinds ++ body.kinds)
          (body.warnings (s.tokens.drop c.conditionKinds.length)) s' σ'
          (d.extend (σ.round code f.code.length ++
            f.redirect (d.labels.length + 1) (σ.offset + code.length + 1 + f.code.length + 1) ++
            σ.again)) (f.methods.map Method.draft) := by
  have := he.onward
  have := hs.onward
  have hoffset : d.code.length = σ.offset := by simpa [Draft.grow, Site.within] using h.fits.offset
  refine (bindRound_goes (E := fun _ _ => True) (hcode (Nat.le_refl _)) hoffset h.goes).then
    fun _ s₁ h₁ => ?_
  have hlength₁ := h₁.passes.length_tokens
  refine (condition_accepts he h₁.here hoptions (by omega)).then ?_
  rintro _ s₂ ⟨c, code, hcondition, h₂⟩
  rw [c.lowerTo?_within] at hcondition
  refine (exitRound_goes (E := fun _ _ => True) (h₁.trans h₂ rfl)).then fun _ s₃ h₃ => ?_
  have hlength₃ := h₃.passes.length_tokens
  refine (required_accepts hs h₃.here hoptions (by omega)).then ?_
  rintro _ s₄ ⟨body, f, hclosed, hlower, hnext, h₄⟩
  have h₄ := h₃.trans h₄ rfl
  rw [h₃.passes.tokens] at h₄
  refine (closeRound_goes (E := fun _ _ => True) (hcode (Nat.le_succ _)) h₄).accepts.mono ?_
  rintro _ s₅ ⟨σ', hsite, hmethod, h₅⟩
  have hlook := h₅.passes.lookahead_eq h₄.passes
  exact ⟨c, body, code, f, σ', hcondition, hclosed, hlower, hlook ▸ hnext, hsite, hmethod, h₅⟩

end

omit he hs in
/-- What is ahead inside a loop, behind some tokens. -/
theorem drop_while {s s₁ : State} {σ : Site} {o : Outline} {d : Draft} {ms : List Draft}
    {added : List Diagnostic} (h : s.Goes o [.keyword .while] added s₁ σ d ms) (labels : Loop)
    (n : Nat) :
    (State.tokens { s₁ with loops := labels :: s₁.loops }).drop n = s.tokens.drop (n + 1) := by
  show s₁.tokens.drop _ = _
  rw [h.passes.tokens, List.drop_drop, Nat.add_comm]
  rfl

/-- What follows the keyword of a loop. -/
def loopRest (expression : Production (Option Ty)) (statement : Production Bool) :
    Production Bool := do
  let labels ← loopLabels
  inLoop labels (rounds expression statement labels)
  return true

omit hs in
/-- The rest of a loop is read if its condition and its body are.  Behind it the loop around is the
innermost one again. -/
theorem loop_goes {s s₁ : State} {σ : Site} {o : Outline} {d : Draft} (h : s.At σ o d)
    (h₁ : s.Goes o [.keyword .while] [] s₁ σ d []) (hoptions : σ.options = options)
    (hbound : s₁.tokens.length ≤ bound) {c : Expr .relation} {code : List Operation}
    (hcode : c.lowerTo? σ .bool = some code) {bodyKinds rest : List Token.Kind}
    {R : Fragment → List Diagnostic → Prop}
    (hkinds : s.kinds = .keyword .while :: (c.conditionKinds ++ rest))
    (hbody : YieldsAt statement true
      ((σ.within (σ.pendingExits d.labels.length)).ahead (code.length + 1))
      (s.tokens.drop (c.conditionKinds.length + 1)) bodyKinds R) :
    Ends (loopRest expression statement) s₁ (fun a s' => a = true ∧ ∃ f added, R f added ∧
      s.Moves σ o d (.keyword .while :: (c.conditionKinds ++ bodyKinds))
        (σ.round code f.code.length ++
          f.redirect (d.labels.length + 1) (σ.offset + code.length + 1 + f.code.length + 1) ++
          σ.again) added s') fun _ _ => False := by
  refine (loopLabels_goes h₁).bind ?_
  rintro _ s₂ ⟨rfl, hinside, h₂⟩
  have hlabels {l : Nat} (hl : d.labels.length ≤ l) (i : Instruction) (hi : i ∈ d.code) :=
    target?_ne_pending h.goes hi hl
  have hlength₁ := h₁.passes.length_tokens
  have hlength₂ := h₂.passes.length_tokens
  have hbound₂ : s₂.tokens.length ≤ bound := by omega
  rw [← drop_while h₂ ⟨⟨σ.method, d.labels.length + 1⟩, ⟨σ.method, d.labels.length⟩⟩] at hbody
  refine Ends.bind (bracket_ends ((rounds_goes he hlabels hinside hoptions hbound₂
    (h₂.passes.kinds_eq hkinds) hcode hbody).imp ?_)) fun _ s₄ h₄ => ⟨rfl, h₄⟩
  intro _ s₃ h₃
  obtain ⟨f, added, σ', hf, hsite, hmethod, h₃⟩ := h₃
  exact ⟨f, added, hf, leaveRounds_moves h h₂ hsite hmethod h₃⟩

/-- A loop is read if its condition and its body are.  Its branches go to the condition and to
behind the loop, as the tree means them to. -/
theorem matches_loop : Matches options (bound + 1) (fun k => k = .keyword .while)
    (fun i => ∃ c body, i = .statement (.loop c body)) (loop expression statement) := by
  have := he.onward
  have := hs.onward
  refine .of_accept (by simp) (fun _ => loopRest expression statement)
    (fun _ => congrFun (loop_eq _ _) _) (onward_fine.loop he.onward hs.onward) ?_ ?_ ?_
  · rintro _ ⟨c, body, rfl⟩
    exact ⟨_, rfl⟩
  · rintro s s₁ σ o d h h₁ hoptions hbound _ k ahead f ⟨c, body, rfl⟩ hkinds hk hclosed hlower
    obtain ⟨code, hcondition, g, hg, rfl⟩ := Stmt.lower?_loop.mp hlower
    -- while the body is read, the end of the loop is a label and not yet an offset
    rw [body.lower?_within_exits d.labels.length, Option.map_eq_some_iff] at hg
    obtain ⟨f, hf, rfl⟩ := hg
    have hkinds : s.kinds =
        .keyword .while :: (c.conditionKinds ++ (body.kinds ++ k :: ahead)) := by
      simpa [Item.kinds, Stmt.kinds] using hkinds
    have hlength : (s.tokens.drop (c.conditionKinds.length + 1)).length ≤ bound := by
      have hdrop := congrArg List.length (drop_tokens h₁ c.conditionKinds.length)
      simp only [List.length_drop, List.length_singleton] at hdrop ⊢
      omega
    have hbody := hs.yieldsAt hlength ⟨body, rfl⟩
      (kinds_drop (.keyword .while :: c.conditionKinds) hkinds) hk hclosed
      (σ := (σ.within (σ.pendingExits d.labels.length)).ahead (code.length + 1)) hoptions hf
    refine (loop_goes he h h₁ hoptions hbound hcondition hkinds hbody).imp ?_
    rintro a s₂ ⟨ha, _, _, ⟨rfl, rfl⟩, h₂⟩
    rw [body.length_code hf] at h₂
    exact ⟨ha, h₂⟩
  · intro s s₁ σ o d h h₁ hoptions hbound
    refine (loopLabels_goes (E := fun _ _ => True) h₁).then ?_
    rintro _ s₂ ⟨rfl, hinside, h₂⟩
    have hcode {l : Nat} (hl : d.labels.length ≤ l) (i : Instruction) (hi : i ∈ d.code) :=
      target?_ne_pending h.goes hi hl
    have hlength₁ := h₁.passes.length_tokens
    have hlength₂ := h₂.passes.length_tokens
    have hbound₂ : s₂.tokens.length ≤ bound := by omega
    have hinLoop (labels : Loop) : Onward (inLoop labels (rounds expression statement labels)) :=
      onward_fine.inLoop inferInstance labels
    refine Accepts.then (bracket_accepts (fun _ => ⟨_, _, _, _, rfl⟩)
      ((rounds_accepts he hs hcode hinside hoptions hbound₂).mono ?_))
      fun _ s₄ h₄ => accepts_pure ⟨rfl, h₄⟩
    rintro _ s₃ ⟨c, body, code, f, σ', hcondition, hclosed, hf, hnext, hsite, hmethod, h₃⟩
    have h₃ := leaveRounds_moves h h₂ hsite hmethod h₃
    rw [body.length_code hf, drop_while h₂] at h₃
    have hg := body.lower?_within_exits d.labels.length σ code body.size
    rw [hf, Option.map_some] at hg
    refine ⟨.statement (.loop c body), _, ⟨c, body, rfl⟩, hclosed,
      Stmt.lower?_loop.mpr ⟨code, hcondition, _, hg, rfl⟩, hnext, ?_⟩
    simpa [Item.kinds, Stmt.kinds, Item.warnings, Stmt.warnings] using h₃

end

end Production

end OnePass
