import OnePass.Proofs.Containment

/-!
# Stray statements

A statement that leaves a loop is a stray one if there is no loop around it within its own
method; a loop around the method does not count.  The pass is ended where the first stray
statement stands, if all before it is in order, and it is ended by nothing but stray
statements and broken invariants.

To say that a tree is in order apart from its stray statements, these are replaced by empty
ones.

## Main definitions

* `Items.tamed` — the tree with its stray statements replaced.
* `Items.strays` — what is to be said about the stray statements, the first one first.
* `Production.Halts` — a run is ended by a stray statement.
* `Production.Justified` — a production is ended by stray statements only.

## Main results

* `Items.inOrder_iff_tamed` — a tree is in order if it is so apart from its stray statements, and
  has none.
* `Items.strays_sublist` — stray statements are found in the order of their tokens.
* `Items.halts` — **the first stray statement ends the pass**.
* `Production.justified_grammar` — nothing but a stray statement ends a production.
* `compile_aborted` — **a source is given up at its first stray statement**.
-/

namespace OnePass

/-- The keyword of a stray statement. -/
def Stray.word : Stray → Keyword
  | .break => .break
  | .continue => .continue

/-- The stray statement that one leaving a loop is outside of loops. -/
def Exit.stray : Exit → Stray
  | .break => .break
  | .continue => .continue

/-! ### Trees -/

mutual

/-- The statement with empty statements for the stray ones in it.  A loop inside of it makes
statements that leave it none. -/
def Stmt.tamed (inLoop : Bool) : Stmt → Stmt
  | .block items => .block (items.tamed inLoop)
  | .branch condition body => .branch condition (body.tamed inLoop)
  | .choice condition body other => .choice condition (body.tamed inLoop) (other.tamed inLoop)
  | .loop condition body => .loop condition (body.tamed true)
  | .bug body => .bug (body.tamed inLoop)
  | .leave exit => if inLoop then .leave exit else .empty
  | .expression e => .expression e
  | .empty => .empty
  | .print argument => .print argument
  | .ret value => .ret value

/-- The same for an item.  The loops around a method do not count in it. -/
def Item.tamed (inLoop : Bool) : Item → Item
  | .field type name => .field type name
  | .method type name parameters comma body =>
    .method type name parameters comma (body.tamed false)
  | .statement s => .statement (s.tamed inLoop)

/-- The same for a statement list. -/
def Items.tamed (inLoop : Bool) : Items → Items
  | .nil => .nil
  | .cons item rest => .cons (item.tamed inLoop) (rest.tamed inLoop)

end

mutual

/-- The stray statements of a statement that stands at the beginning of the given tokens, each with
the position of its keyword. -/
def Stmt.strays (inLoop : Bool) : Stmt → List Token → List FatalError
  | .block items, ts => items.strays inLoop (ts.drop 1)
  | .branch condition body, ts =>
    body.strays inLoop (ts.drop (condition.conditionKinds.length + 1))
  | .choice condition body other, ts =>
    let ts := ts.drop (condition.conditionKinds.length + 1)
    body.strays inLoop ts ++ other.strays inLoop (ts.drop (body.kinds.length + 1))
  | .loop condition body, ts => body.strays true (ts.drop (condition.conditionKinds.length + 1))
  | .bug body, ts => body.strays inLoop (ts.drop 1)
  | .leave exit, ts =>
    if inLoop then [] else ts.head?.toList.map fun t => ⟨t.position, exit.stray⟩
  | .expression _, _ => []
  | .empty, _ => []
  | .print _, _ => []
  | .ret _, _ => []

/-- The same for an item. -/
def Item.strays (inLoop : Bool) : Item → List Token → List FatalError
  | .field _ _, _ => []
  | .method type name parameters comma body, ts =>
    body.strays false (ts.drop (Declarator.headerKinds type name parameters comma).length)
  | .statement s, ts => s.strays inLoop ts

/-- The same for a statement list. -/
def Items.strays (inLoop : Bool) : Items → List Token → List FatalError
  | .nil, _ => []
  | .cons item rest, ts =>
    item.strays inLoop ts ++ rest.strays inLoop (ts.drop item.kinds.length)

end

/-- The tokens behind some others are there. -/
theorem le_length_drop {ts : List Token} {m n : Nat} (h : m + n ≤ ts.length) :
    n ≤ (ts.drop m).length := by
  rw [List.length_drop]
  omega

mutual

/-- Without stray statements nothing is replaced.  There have to be enough tokens, or else a stray
statement would not be seen. -/
theorem Stmt.tamed_of_strays {inLoop : Bool} : ∀ {t : Stmt} {ts : List Token},
    t.kinds.length ≤ ts.length → t.strays inLoop ts = [] → t.tamed inLoop = t
  | .block items, ts, hlength, h => by
    have hlength : 1 + items.kinds.length ≤ ts.length := by
      simp only [Stmt.kinds, List.length_append, List.length_cons] at hlength
      omega
    rw [Stmt.tamed, items.tamed_of_strays (le_length_drop hlength) h]
  | .branch condition body, ts, hlength, h => by
    have hlength : condition.conditionKinds.length + 1 + body.kinds.length ≤ ts.length := by
      simp only [Stmt.kinds, List.length_append, List.length_cons] at hlength
      omega
    rw [Stmt.tamed, body.tamed_of_strays (le_length_drop hlength) h]
  | .choice condition body other, ts, hlength, h => by
    have hlength : condition.conditionKinds.length + 1 +
        (body.kinds.length + 1 + other.kinds.length) ≤ ts.length := by
      simp only [Stmt.kinds, List.length_append, List.length_cons] at hlength
      omega
    obtain ⟨hbody, hother⟩ := List.append_eq_nil_iff.mp h
    have hdrop := le_length_drop hlength
    rw [Stmt.tamed, body.tamed_of_strays (by omega) hbody,
      other.tamed_of_strays (le_length_drop hdrop) hother]
  | .loop condition body, ts, hlength, h => by
    have hlength : condition.conditionKinds.length + 1 + body.kinds.length ≤ ts.length := by
      simp only [Stmt.kinds, List.length_append, List.length_cons] at hlength
      omega
    rw [Stmt.tamed, body.tamed_of_strays (le_length_drop hlength) h]
  | .bug body, ts, hlength, h => by
    have hlength : 1 + body.kinds.length ≤ ts.length := by
      simp only [Stmt.kinds, List.length_append, List.length_cons] at hlength
      omega
    rw [Stmt.tamed, body.tamed_of_strays (le_length_drop hlength) h]
  -- outside of loops the statement is stray, and there is a token for it
  | .leave exit, ts, hlength, h => by
    cases inLoop with
    | true => rfl
    | false =>
      cases ts with
      | nil => cases hlength
      | cons t ts => cases h
  | .expression _, _, _, _ => rfl
  | .empty, _, _, _ => rfl
  | .print _, _, _, _ => rfl
  | .ret _, _, _, _ => rfl

theorem Item.tamed_of_strays {inLoop : Bool} : ∀ {item : Item} {ts : List Token},
    item.kinds.length ≤ ts.length → item.strays inLoop ts = [] → item.tamed inLoop = item
  | .field _ _, _, _, _ => rfl
  | .method type name parameters comma body, ts, hlength, h => by
    have hlength : (Declarator.headerKinds type name parameters comma).length +
        body.kinds.length ≤ ts.length := by
      simp only [Item.kinds, List.length_append] at hlength
      omega
    rw [Item.tamed, body.tamed_of_strays (le_length_drop hlength) h]
  | .statement t, ts, hlength, h => by rw [Item.tamed, t.tamed_of_strays hlength h]

theorem Items.tamed_of_strays {inLoop : Bool} : ∀ {items : Items} {ts : List Token},
    items.kinds.length ≤ ts.length → items.strays inLoop ts = [] → items.tamed inLoop = items
  | .nil, _, _, _ => rfl
  | .cons item rest, ts, hlength, h => by
    have hlength : item.kinds.length + rest.kinds.length ≤ ts.length := by
      simpa only [Items.kinds, List.length_append] using hlength
    obtain ⟨hitem, hrest⟩ := List.append_eq_nil_iff.mp h
    rw [Items.tamed, item.tamed_of_strays (by omega) hitem,
      rest.tamed_of_strays (le_length_drop hlength) hrest]

end

/-- What stands at the beginning of the tokens, and what stands behind it, one after the other. -/
theorem append_sublist_take {ts : List Token} {ps qs : List Position} {l m n k : Nat}
    (hp : ps.Sublist ((ts.take l).map Token.position))
    (hq : qs.Sublist (((ts.drop m).take n).map Token.position)) (hm : l ≤ m) (hk : m + n ≤ k) :
    (ps ++ qs).Sublist ((ts.take k).map Token.position) := by
  have htake : (ts.take (m + n)).Sublist (ts.take k) := List.take_sublist_take_left hk
  refine List.Sublist.trans ?_ (htake.map _)
  rw [List.take_add, List.map_append]
  exact (hp.trans ((List.take_sublist_take_left hm).map _)).append hq

mutual

/-- Stray statements are found in the order of their tokens, so the first one found is the first one
to be read. -/
theorem Stmt.strays_sublist (inLoop : Bool) : ∀ (t : Stmt) (ts : List Token),
    ((t.strays inLoop ts).map FatalError.position).Sublist
      ((ts.take t.kinds.length).map Token.position)
  | .block items, ts =>
    append_sublist_take (List.nil_sublist _) (items.strays_sublist inLoop _) (Nat.zero_le 1)
      (by simp only [Stmt.kinds, List.length_append, List.length_cons]; omega)
  | .branch condition body, ts =>
    append_sublist_take (List.nil_sublist _) (body.strays_sublist inLoop _) (Nat.zero_le _)
      (by simp only [Stmt.kinds, List.length_append, List.length_cons]; omega)
  | .choice condition body other, ts => by
    -- first the two statements behind the condition, then what stands before them
    have hboth := append_sublist_take
      (body.strays_sublist inLoop (ts.drop (condition.conditionKinds.length + 1)))
      (other.strays_sublist inLoop _) (Nat.le_succ _) (Nat.le_refl _)
    rw [← List.map_append] at hboth
    exact append_sublist_take (List.nil_sublist _) hboth (Nat.zero_le _)
      (by simp only [Stmt.kinds, List.length_append, List.length_cons]; omega)
  | .loop condition body, ts =>
    append_sublist_take (List.nil_sublist _) (body.strays_sublist true _) (Nat.zero_le _)
      (by simp only [Stmt.kinds, List.length_append, List.length_cons]; omega)
  | .bug body, ts =>
    append_sublist_take (List.nil_sublist _) (body.strays_sublist inLoop _) (Nat.zero_le 1)
      (by simp only [Stmt.kinds, List.length_append, List.length_cons]; omega)
  | .leave exit, ts => by
    cases inLoop <;> cases ts <;> simp [Stmt.strays, Stmt.kinds]
  | .expression _, _ => List.nil_sublist _
  | .empty, _ => List.nil_sublist _
  | .print _, _ => List.nil_sublist _
  | .ret _, _ => List.nil_sublist _

theorem Item.strays_sublist (inLoop : Bool) : ∀ (item : Item) (ts : List Token),
    ((item.strays inLoop ts).map FatalError.position).Sublist
      ((ts.take item.kinds.length).map Token.position)
  | .field _ _, _ => List.nil_sublist _
  | .method type name parameters comma body, ts =>
    append_sublist_take (List.nil_sublist _) (body.strays_sublist false _) (Nat.zero_le _)
      (by simp only [Item.kinds, List.length_append]; omega)
  | .statement t, ts => t.strays_sublist inLoop ts

theorem Items.strays_sublist (inLoop : Bool) : ∀ (items : Items) (ts : List Token),
    ((items.strays inLoop ts).map FatalError.position).Sublist
      ((ts.take items.kinds.length).map Token.position)
  | .nil, _ => List.nil_sublist _
  | .cons item rest, ts => by
    rw [Items.strays, List.map_append]
    exact append_sublist_take (item.strays_sublist inLoop ts) (rest.strays_sublist inLoop _)
      (Nat.le_refl _) (Nat.le_of_eq List.length_append.symm)

end

mutual

/-- What is in order has no stray statements, since the rules ask for a loop around a statement that
leaves one. -/
theorem Stmt.Checks.tamed_eq : ∀ {t : Stmt} {place : Place} {outer : List Frame}
    {frame frame' : Frame}, t.Checks place outer frame frame' → t.tamed place.inLoop = t
  | _, _, _, _, _, .block h => by rw [Stmt.tamed, h.tamed_eq]
  | _, _, _, _, _, .branch _ _ h => by rw [Stmt.tamed, h.tamed_eq]
  | _, _, _, _, _, .choice _ _ h h' => by rw [Stmt.tamed, h.tamed_eq, h'.tamed_eq]
  | _, _, _, _, _, .loop _ _ h => by rw [Stmt.tamed, h.tamed_eq]
  | _, _, _, _, _, .bug h => by rw [Stmt.tamed, h.tamed_eq]
  | _, _, _, _, _, .leave h => if_pos h
  | _, _, _, _, _, .expression _ => rfl
  | _, _, _, _, _, .empty => rfl
  | _, _, _, _, _, .printNothing => rfl
  | _, _, _, _, _, .print _ => rfl
  | _, _, _, _, _, .ret _ => rfl
  | _, _, _, _, _, .retValue _ _ _ => rfl

theorem Item.Checks.tamed_eq : ∀ {item : Item} {place : Place} {outer : List Frame}
    {frame frame' : Frame}, item.Checks place outer frame frame' → item.tamed place.inLoop = item
  | _, _, _, _, _, .field _ _ => rfl
  | _, _, _, _, _, .method _ _ _ _ _ h => by rw [Item.tamed, h.tamed_eq]
  | _, _, _, _, _, .statement h => by rw [Item.tamed, h.tamed_eq]

theorem Items.Checks.tamed_eq : ∀ {items : Items} {place : Place} {outer : List Frame}
    {frame frame' : Frame}, items.Checks place outer frame frame' →
    items.tamed place.inLoop = items
  | _, _, _, _, _, .nil => rfl
  | _, _, _, _, _, .cons h h' => by rw [Items.tamed, h.tamed_eq, h'.tamed_eq]

end

/-- A tree is in order if it is so apart from its stray statements, and has none. -/
theorem Items.inOrder_iff_tamed (items : Items) :
    items.InOrder ↔ items.tamed false = items ∧ (items.tamed false).InOrder := by
  constructor
  · intro h
    obtain ⟨frame, hitems⟩ := h
    have htamed : items.tamed false = items := hitems.tamed_eq
    exact ⟨htamed, frame, by rwa [htamed]⟩
  · rintro ⟨htamed, h⟩
    rwa [htamed] at h

/-! ### Runs that are ended -/

/-- Warnings are no errors. -/
theorem State.Passes.clean {s s' : State} {ks : List Token.Kind} {added : List Diagnostic}
    (h : s.Passes ks added s') (hclean : s.Clean) (hadded : ∀ d ∈ added, d.isError = false) :
    s'.Clean := by
  intro d hd
  rw [h.reports] at hd
  exact (List.mem_append.mp hd).elim (hclean d) (hadded d)

namespace Production

variable {α β : Type} {e : FatalError} {s s₁ : State} {σ : Site} {o : Outline} {d : Draft}

/-- The run from the state is ended by a stray statement, before any error is reported. -/
def Halts (p : Production α) (s : State) (e : FatalError) : Prop :=
  Ends p s (fun _ _ => False) fun h s' => h = .fatal e ∧ s'.Clean

/-- It is ended in every state at the site with the given tokens ahead, if no error has been
reported before. -/
def HaltsAt (p : Production α) (σ : Site) (ts : List Token) (e : FatalError) : Prop :=
  ∀ ⦃s : State⦄ ⦃o : Outline⦄ ⦃d : Draft⦄, s.At σ o d → s.tokens = ts → s.Clean → Halts p s e

/-- What would follow a step that is ended does not matter, since it is not made. -/
theorem Halts.bind {p : Production α} (h : Halts p s e) (f : α → Production β) :
    Halts (p >>= f) s e :=
  ends_bind.mpr (h.imp fun _ _ hQ => hQ.elim)

/-- A last step that reports nothing is made when a step is ended, and does not change how the whole
is ended. -/
theorem Halts.ensuring {p : Production α} (h : Halts p s e) {last : Production Unit}
    (hlast : ∀ {s' : State}, s'.Clean → Ends last s' (fun _ s₂ => s₂.Clean) fun _ s₂ => s₂.Clean) :
    Halts (ensuring p last) s e := by
  refine Ends.ensuring (h.mono (fun _ _ hQ => hQ.elim) ?_)
  rintro _ s' ⟨rfl, hclean⟩
  exact (hlast hclean).mono (fun _ _ h₂ => ⟨rfl, h₂⟩) fun _ _ h₂ => ⟨rfl, h₂⟩

/-- A loop is left when a step in it is ended. -/
theorem Halts.inLoop {step : Production α} {loop : Loop}
    (h : Halts step { s with loops := loop :: s.loops } e) : Halts (inLoop loop step) s e :=
  ends_bind.mpr (ends_modify.mpr (h.ensuring fun hclean => ends_modify.mpr hclean))

/-- A method is left when a step in it is ended. -/
theorem Halts.inMethod {step : Production α} {id : MethodId}
    (h : Halts step { s with methods := id :: s.methods } e) : Halts (inMethod id step) s e :=
  ends_bind.mpr (ends_modify.mpr (h.ensuring fun hclean => ends_modify.mpr hclean))

/-- No error is reported where a scope is left. -/
theorem leaveScope_clean (loops : List Loop) (hclean : s.Clean) :
    Ends (leaveScope loops) s (fun _ s' => s'.Clean) fun _ s' => s'.Clean :=
  ends_bind.mpr (ends_modify.mpr (ends_scope (fun _ _ _ => hclean) fun _ _ _ => hclean))

/-! ### The constructs around a stray statement -/

/-- A stray statement ends the pass where it stands.  There is no loop around it, so there is no
label to branch to. -/
theorem leaveStatement_halts {exit : Exit} {ks : List Token.Kind} (h : s.At σ o d)
    (hclean : s.Clean) (hloop : σ.loop = none) (hkinds : s.kinds = .keyword exit.word :: ks) :
    Halts (leaveStatement exit.word exit.stray exit.label) s
      ⟨s.lookahead.position, exit.stray⟩ := by
  refine ends_of_accept (by simp) rfl h hkinds fun {s₁} h₁ _ => ?_
  show Ends (leaveRest exit exit.stray s.lookahead.position) s₁ _ _
  refine ends_bind.mpr (ends_view.mpr ?_)
  -- the loops of the state are those of the site
  have hloops : s₁.loops.head? = none := by
    rw [h₁.loops]
    exact Option.map_eq_none_iff.mp (h.fits.loop.symm.trans hloop)
  rw [hloops]
  exact ⟨rfl, h₁.passes.clean hclean (by simp)⟩

section

variable {expression : Production (Option Ty)} {statement : Production Bool} {options : Options}
  {bound : Nat} (he : Reads options bound .relation expression) (h : s.At σ o d)
  (hoptions : σ.options = options) (hbound : s₁.tokens.length ≤ bound) {c : Expr .relation}
  {code : List Operation} (hcode : c.lowerTo? σ .bool = some code) (hclean : s.Clean)
include he h hoptions hbound hcode hclean

omit h in
/-- A conditional is ended in its body, behind a condition that is well. -/
theorem conditionalRest_halts (h₁ : s.Goes o [.keyword .if] [] s₁ σ d []) {rest : List Token.Kind}
    (hkinds : s.kinds = .keyword .if :: (c.conditionKinds ++ rest))
    (hbody : HaltsAt statement (σ.ahead (code.length + 1))
      (s.tokens.drop (c.conditionKinds.length + 1)) e) :
    Halts (conditionalRest expression statement) s₁ e := by
  refine Halts.bind ?_ _
  refine (condition_goes he h₁.here hoptions hbound (h₁.passes.kinds_eq hkinds) hcode).safely.bind
    fun _ s₂ h₂ => ?_
  refine (skip_goes (h₁.trans h₂ rfl)).bind fun _ s₃ h₃ => ?_
  obtain ⟨-, h₃⟩ := h₃
  refine Halts.bind (Halts.bind (hbody h₃.here ?_ (h₃.passes.clean hclean (by simp))) _) _
  rw [h₃.passes.tokens, List.length_append, List.length_singleton, Nat.add_comm]

/-- A conditional is ended in its alternative.  The condition and the body are read as usual before
that. -/
theorem alternative_halts (h₁ : s.Goes o [.keyword .if] [] s₁ σ d [])
    {bodyKinds rest : List Token.Kind} {f : Fragment} {warnings : List Diagnostic}
    (hkinds : s.kinds = .keyword .if ::
      (c.conditionKinds ++ (bodyKinds ++ .keyword .else :: rest)))
    (hbody : YieldsAt statement true (σ.ahead (code.length + 1))
      (s.tokens.drop (c.conditionKinds.length + 1)) bodyKinds (Exactly f warnings))
    (hf : f.Before d.labels.length) (hwarnings : ∀ d ∈ warnings, d.isError = false)
    (hother : HaltsAt statement ((σ.past (σ.skip code (f.code.length + 1) ++ f)).ahead 1)
      ((s.tokens.drop (c.conditionKinds.length + 1)).drop (bodyKinds.length + 1)) e) :
    Halts (conditionalRest expression statement) s₁ e := by
  have hbody : YieldsAt statement true (σ.ahead (code.length + 1))
      (s₁.tokens.drop c.conditionKinds.length) bodyKinds (Exactly f warnings) := by
    rw [drop_tokens h₁]
    exact hbody
  refine (guarded_goes he h₁ hoptions hbound hkinds hcode hbody).safely.bind ?_
  rintro _ s₂ ⟨rfl, _, _, ⟨rfl, rfl⟩, h₂⟩
  refine Halts.bind ?_ _
  rw [alternative_eq]
  have helse := State.lookahead_of_kinds (h₂.passes.kinds_eq (by simpa using hkinds))
  refine (accept_takes h₂ (by simp) helse).bind ?_
  rintro _ s₃ ⟨rfl, h₃⟩
  refine (leap_goes h hf h₃).bind ?_
  rintro _ s₄ ⟨rfl, h₄⟩
  refine Halts.bind (Halts.bind (hother h₄.here ?_ (h₄.passes.clean hclean hwarnings)) _) _
  rw [← drop_else h₂, h₄.passes.tokens, h₂.passes.tokens, List.drop_drop, List.length_append]
  rfl

omit h hbound hclean in
/-- The rounds of a loop are ended in its body, before the labels of the loop are settled. -/
theorem rounds_halts (hbound : s.tokens.length ≤ bound) (hclean : s.Clean)
    (hwaiting : ∀ i ∈ d.code, i.target? ≠ some (.pending d.labels.length))
    (h : s.At (σ.within ⟨.pending (d.labels.length + 1), .pending d.labels.length⟩) o
      (d.grow [] [] [none, none]))
    {rest : List Token.Kind} (hkinds : s.kinds = c.conditionKinds ++ rest)
    (hbody : HaltsAt statement
      ((σ.within (σ.pendingExits d.labels.length)).ahead (code.length + 1))
      (s.tokens.drop c.conditionKinds.length) e) :
    Halts (rounds expression statement
      ⟨⟨σ.method, d.labels.length + 1⟩, ⟨σ.method, d.labels.length⟩⟩) s e := by
  have hoffset : d.code.length = σ.offset := by simpa [Draft.grow, Site.within] using h.fits.offset
  refine (bindRound_goes hwaiting hoffset h.goes).bind fun _ s₁ h₁ => ?_
  have hlength₁ := h₁.passes.length_tokens
  rw [← c.lowerTo?_within σ (σ.pendingExits d.labels.length)] at hcode
  refine (condition_goes he h₁.here hoptions (by omega) (h₁.passes.kinds_eq hkinds)
    hcode).safely.bind fun _ s₂ h₂ => ?_
  refine (exitRound_goes (h₁.trans h₂ rfl)).bind fun _ s₃ h₃ => ?_
  exact Halts.bind (Halts.bind
    (hbody h₃.here h₃.passes.tokens (h₃.passes.clean hclean (by simp))) _) _

/-- A loop is ended in its body, by a statement that belongs to a method in it.  Any other statement
that leaves a loop would leave this one. -/
theorem loopRest_halts (h₁ : s.Goes o [.keyword .while] [] s₁ σ d []) {rest : List Token.Kind}
    (hkinds : s.kinds = .keyword .while :: (c.conditionKinds ++ rest))
    (hbody : HaltsAt statement
      ((σ.within (σ.pendingExits d.labels.length)).ahead (code.length + 1))
      (s.tokens.drop (c.conditionKinds.length + 1)) e) :
    Halts (loopRest expression statement) s₁ e := by
  refine (loopLabels_goes h₁).bind ?_
  rintro _ s₂ ⟨rfl, hinside, h₂⟩
  have hlength₁ := h₁.passes.length_tokens
  have hlength₂ := h₂.passes.length_tokens
  have hbound₂ : s₂.tokens.length ≤ bound := by omega
  have hclean₂ : s₂.Clean := h₂.passes.clean hclean (by simp)
  rw [← drop_while h₂ ⟨⟨σ.method, d.labels.length + 1⟩, ⟨σ.method, d.labels.length⟩⟩] at hbody
  exact Halts.bind (Halts.inLoop (rounds_halts he hoptions hcode hbound₂ hclean₂
    (fun i hi => target?_ne_pending h.goes hi (Nat.le_refl _)) hinside
    (h₂.passes.kinds_eq hkinds) hbody)) _

end

/-- A method is ended in its body, once its parameters have been read. -/
theorem methodRest_halts {item : Production Bool} {budget : Nat} {x : String} {type : TypeName}
    {entity : EntityId} (h : s.At (σ.header x) o d) (hloops : s.loops = []) (hclean : s.Clean)
    (hentity : s.scopes.entities[entity]? = some (.method x type.ty [] none))
    (hbudget : s.tokens.length ≤ budget + 1) {ds : List Declarator} {comma : Bool}
    {rest : List Token.Kind} (hkinds : s.kinds = Declarator.parameterKinds ds comma ++ rest)
    (hds : (σ.header x).Lists 0 ds comma)
    (hbody : HaltsAt (block budget item) (σ.body type.ty x ds)
      (s.tokens.drop (Declarator.parameterKinds ds comma).length) e) :
    Halts (methodRest budget item entity type.ty x) s e := by
  refine methodRest_opens h hloops hentity hbudget hkinds hds fun {s₁} _ _ _ h₁ hat => ?_
  have hclean₁ : s₁.Clean := h₁.goes.passes.clean hclean (by simp)
  exact Halts.bind (Halts.inMethod (Halts.bind (hbody hat h₁.goes.passes.tokens hclean₁) _)) _

/-- The declaration of a method is ended in its body.  Its scope is left on the way out. -/
theorem method_halts {item : Production Bool} {budget : Nat} {x : String} {type : TypeName}
    (h : s.At σ o d) (hclean : s.Clean) (hbudget : s.tokens.length ≤ budget + 1)
    {ds : List Declarator} {comma : Bool} {rest : List Token.Kind}
    (hkinds : s.kinds = Declarator.parameterKinds ds comma ++ rest)
    (hfresh : σ.declaredHere x = false) (hwell : Declarator.wellFormed ds comma = true)
    (hbody : HaltsAt (block budget item) (σ.body type.ty x ds)
      (s.tokens.drop (Declarator.parameterKinds ds comma).length) e) (p : Position) :
    Halts (method budget item type.ty x p) s e := by
  refine ends_bind.mpr (ends_of_ok (checkFresh_eq h hfresh _ _) ?_)
  refine (declareMethod_goes h x type.ty).bind fun entity s₁ h₁ => ?_
  obtain ⟨hentity, h₁, hat⟩ := h₁
  obtain ⟨log, hscope⟩ := inScope_eq (methodRest budget item entity type.ty x) s₁
  have htokens : s₁.tokens = s.tokens := h₁.passes.tokens
  rw [← htokens] at hbody hbudget
  unfold Ends
  rw [hscope]
  have hclean₁ : s₁.Clean := h₁.passes.clean hclean (by simp)
  exact (methodRest_halts (enterScope_at hat log) rfl hclean₁ hentity hbudget
    (h₁.passes.kinds_eq hkinds) ((σ.lists_header x ds comma).mpr hwell) hbody).ensuring
    (leaveScope_clean _)

end Production

/-! ### The first stray statement -/

/-- If all else in the statement means something, it is ended by the first stray statement in it.
To say so, the stray ones are replaced by empty statements. -/
def Stmt.Halts (t : Stmt) : Prop :=
  ∀ ⦃budget : Nat⦄ ⦃σ : Site⦄ ⦃f : Fragment⦄ ⦃ts : List Token⦄ ⦃k : Token.Kind⦄
    ⦃rest : List Token.Kind⦄ ⦃e : FatalError⦄ ⦃more : List FatalError⦄,
    σ.options.stopStatements = true → ts.length ≤ budget →
    ts.map Token.kind = t.kinds ++ k :: rest → t.goesOn k = false → t.closed = true →
    (t.tamed σ.loop.isSome).lower? σ = some f → t.strays σ.loop.isSome ts = e :: more →
    Production.HaltsAt (Production.statement σ.options budget) σ ts e

/-- The same for items. -/
def Item.Halts (i : Item) : Prop :=
  ∀ ⦃budget : Nat⦄ ⦃σ : Site⦄ ⦃f : Fragment⦄ ⦃ts : List Token⦄ ⦃k : Token.Kind⦄
    ⦃rest : List Token.Kind⦄ ⦃e : FatalError⦄ ⦃more : List FatalError⦄,
    σ.options.stopStatements = true → ts.length ≤ budget →
    ts.map Token.kind = i.kinds ++ k :: rest → i.goesOn k = false → i.closed = true →
    (i.tamed σ.loop.isSome).lower? σ = some f → i.strays σ.loop.isSome ts = e :: more →
    Production.HaltsAt (Production.item σ.options budget) σ ts e

/-- The same for statement lists, be they in a block or a whole program. -/
def Items.Halts (items : Items) : Prop :=
  ∀ ⦃budget n : Nat⦄ ⦃k : Token.Kind⦄ ⦃rest : List Token.Kind⦄ ⦃run : Nat → Production Unit⦄
    ⦃close : State → State⦄ ⦃s : State⦄ ⦃σ : Site⦄ ⦃o : Outline⦄ ⦃d : Draft⦄ ⦃f : Fragment⦄
    ⦃e : FatalError⦄ ⦃more : List FatalError⦄,
    Production.Runs σ.options budget k rest run close → σ.options.stopStatements = true →
    s.At σ o d → s.Clean → s.tokens.length ≤ budget → s.tokens.length ≤ n + 1 →
    s.kinds = items.kinds ++ k :: rest → items.closed = true →
    (items.tamed σ.loop.isSome).lower? σ = some f →
    items.strays σ.loop.isSome s.tokens = e :: more → Production.Halts (run n) s e

namespace Production

variable {budget : Nat} {s : State} {σ : Site} {o : Outline} {d : Draft} {e : FatalError}

/-- A list is ended in its first item, or behind it.  In the second case the first item has no stray
statement, and is read as usual. -/
theorem halts_cons {i : Item} {rest : Items} (hi : i.Halts) (hrest : rest.Halts) :
    (Items.cons i rest).Halts := by
  intro budget n k ahead run close s σ o d f e more hruns hstop h hclean hbound hn hkinds hclosed
    hlower hstrays
  obtain ⟨g, hg, g₁, hg₁, rfl⟩ := Items.lower?_cons.mp hlower
  obtain ⟨n, rfl, hlook⟩ := room_of_kinds hn hkinds
  obtain ⟨k', ahead', hnext, hk'⟩ := Items.next_of_closed hruns.ends hclosed ahead
  have hnext := hkinds.trans hnext
  simp only [Items.closed, Bool.and_eq_true] at hclosed
  rw [Items.strays] at hstrays
  -- whose stray statement is the first one depends on whether the item has any
  cases hstray : i.strays σ.loop.isSome s.tokens with
  | cons e' more' =>
    rw [hstray] at hstrays
    obtain ⟨rfl, -⟩ := List.cons.inj hstrays
    exact hruns.step hlook ((hi hstop hbound hnext hk' hclosed.1.2 hg hstray h rfl hclean).imp
      fun _ _ hQ => hQ.elim)
  | nil =>
    rw [hstray, List.nil_append] at hstrays
    -- nothing is replaced in the item, so it is read as it stands
    rw [i.tamed_of_strays (length_le_of_map_kind hnext) hstray] at hg
    refine hruns.step hlook (((matches_item σ.options budget).complete h rfl hbound trivial
      hnext hk' hclosed.1.2 hg).safely.imp ?_)
    intro a s₁ h₁
    obtain ⟨ha, h₁⟩ := h₁
    refine ⟨ha, ?_⟩
    have hlength := h₁.passes.length_tokens
    obtain ⟨k₁, ks₁, hks₁, -⟩ := i.kinds_eq_cons
    rw [hks₁, List.length_cons] at hlength
    rw [Items.kinds, List.append_assoc] at hkinds
    rw [← h₁.passes.tokens] at hstrays
    exact hrest (σ := σ.past g) hruns hstop h₁.here
      (h₁.passes.clean hclean (i.isError_of_mem_warnings _)) (by omega) (by omega)
      (h₁.passes.kinds_eq hkinds) hclosed.2 hg₁ hstrays

/-- A block is ended in its items, whichever of them has the stray statement. -/
theorem block_halts {items : Items} (hitems : items.Halts) {f : Fragment} {ts : List Token}
    {rest : List Token.Kind} {more : List FatalError} (hstop : σ.options.stopStatements = true)
    (hbound : ts.length ≤ budget + 1)
    (hkinds : ts.map Token.kind = (Stmt.block items).kinds ++ rest)
    (hclosed : items.closed = true) (hlower : (items.tamed σ.loop.isSome).lower? σ = some f)
    (hstrays : items.strays σ.loop.isSome (ts.drop 1) = e :: more) :
    HaltsAt (block budget (item σ.options budget)) σ ts e := by
  intro s o d h htokens hclean
  subst htokens
  have hkinds : s.kinds = .symbol .leftBrace :: (items.kinds ++ .symbol .rightBrace :: rest) := by
    simpa [State.kinds, Stmt.kinds] using hkinds
  refine ends_of_accept (by simp) rfl h hkinds fun {s₁} h₁ hlength => ?_
  have htokens : s₁.tokens = s.tokens.drop 1 := h₁.passes.tokens
  rw [← htokens] at hstrays
  exact Halts.bind (hitems (runs_repeatedly _ budget rest) hstop h₁.here
    (h₁.passes.clean hclean (by simp)) (by omega) (by omega) (h₁.passes.kinds_eq hkinds) hclosed
    hlower hstrays) _

/-- A statement is ended if its first token says which form it has.  The budget allows for one token
at least. -/
theorem halts_of_form {t : Stmt}
    (h : ∀ {budget : Nat} {s : State} {σ : Site} {o : Outline} {d : Draft} {f : Fragment}
      {k : Token.Kind} {rest : List Token.Kind} {e : FatalError} {more : List FatalError},
      σ.options.stopStatements = true → s.At σ o d → s.Clean → s.tokens.length ≤ budget + 1 →
      s.kinds = t.kinds ++ k :: rest → t.goesOn k = false → t.closed = true →
      (t.tamed σ.loop.isSome).lower? σ = some f → t.strays σ.loop.isSome s.tokens = e :: more →
      Halts (statement σ.options (budget + 1)) s e) : t.Halts := by
  intro budget σ f ts k rest e more hstop hbound hkinds hk hclosed hlower hstrays s o d hat htokens
    hclean
  subst htokens
  obtain ⟨budget, rfl⟩ := State.exists_budget hbound
  exact h hstop hat hclean hbound hkinds hk hclosed hlower hstrays

theorem halts_block {items : Items} (hitems : items.Halts) : (Stmt.block items).Halts :=
  halts_of_form fun hstop h hclean hbound hkinds _ hclosed hlower hstrays =>
    statement_ends (Halts.bind
      (block_halts hitems hstop hbound hkinds hclosed hlower hstrays h rfl hclean) _)

/-- A conditional is tried after blocks. -/
theorem conditional_halts {ks : List Token.Kind} (h : s.At σ o d)
    (hkinds : s.kinds = .keyword .if :: ks)
    (hrest : ∀ {s₁ : State}, s.Goes o [.keyword .if] [] s₁ σ d [] →
      s.tokens.length = s₁.tokens.length + 1 → Halts (conditionalRest
        (expression σ.options (budget + 1)) (statement σ.options budget)) s₁ e) :
    Halts (statement σ.options (budget + 1)) s e :=
  statement_ends (firstOf_pass (block_refuses h.ready.settled (State.lookahead_of_kinds hkinds)
    (by simp)) (Halts.bind
      (ends_of_accept (by simp) (congrFun (conditional_eq _ _) _) h hkinds hrest) _))

theorem halts_branch {c : Expr .relation} {body : Stmt} (hbody : body.Halts) :
    (Stmt.branch c body).Halts := by
  refine halts_of_form ?_
  intro budget s σ o d f k rest e more hstop h hclean hbound hkinds hk hclosed hlower hstrays
  -- the condition is the same in the tree with the stray statements replaced
  obtain ⟨code, hcode, g, hg, -⟩ := Stmt.lower?_branch.mp hlower
  rw [Site.past_skip] at hg
  obtain ⟨-, hk⟩ : k ≠ .keyword .else ∧ body.goesOn k = false := by
    simpa [Stmt.goesOn] using hk
  have hkinds : s.kinds = .keyword .if :: (c.conditionKinds ++ (body.kinds ++ k :: rest)) := by
    simpa [Stmt.kinds] using hkinds
  have he := (reads_expression σ.options (budget + 1)).mono (Nat.le_succ _)
  refine conditional_halts h hkinds fun {s₁} h₁ hlength => ?_
  exact conditionalRest_halts he rfl (by omega) hcode hclean h₁ hkinds
    (hbody (σ := σ.ahead (code.length + 1)) hstop (length_drop_le hbound _)
      (kinds_drop (.keyword .if :: c.conditionKinds) hkinds) hk hclosed hg hstrays)

theorem halts_choice {c : Expr .relation} {body other : Stmt} (hbody : body.Halts)
    (hother : other.Halts) : (Stmt.choice c body other).Halts := by
  refine halts_of_form ?_
  intro budget s σ o d f k rest e more hstop h hclean hbound hkinds hk hclosed hlower hstrays
  obtain ⟨code, hcode, g, hg, g₁, hg₁, -⟩ := Stmt.lower?_choice.mp hlower
  rw [Site.past_skip] at hg
  have hkinds : s.kinds = .keyword .if :: (c.conditionKinds ++
      (body.kinds ++ .keyword .else :: (other.kinds ++ k :: rest))) := by
    simpa [Stmt.kinds] using hkinds
  obtain ⟨⟨hnext, hclosed⟩, hclosed'⟩ : (body.goesOn (.keyword .else) = false ∧
      body.closed = true) ∧ other.closed = true := by
    simpa [Stmt.closed] using hclosed
  have he := (reads_expression σ.options (budget + 1)).mono (Nat.le_succ _)
  have hbound' := length_drop_le hbound c.conditionKinds.length
  have hkinds' := kinds_drop (.keyword .if :: c.conditionKinds) hkinds
  refine conditional_halts h hkinds fun {s₁} h₁ hlength => ?_
  cases hstray : body.strays σ.loop.isSome (s.tokens.drop (c.conditionKinds.length + 1)) with
  | cons e' more' =>
    simp only [Stmt.strays, hstray] at hstrays
    obtain ⟨rfl, -⟩ := List.cons.inj hstrays
    exact conditionalRest_halts he rfl (by omega) hcode hclean h₁ hkinds
      (hbody (σ := σ.ahead (code.length + 1)) hstop hbound' hkinds' hnext hclosed hg hstray)
  | nil =>
    simp only [Stmt.strays, hstray, List.nil_append] at hstrays
    -- the body means something as it is, so it is read, and its fragment lies before the other
    rw [body.tamed_of_strays (length_le_of_map_kind hkinds') hstray] at hg hg₁
    rw [← body.length_code hg, Site.past_append _ (_ ++ g), Site.past_leap] at hg₁
    have hstatement : Item.IsStatement (.statement body) := ⟨body, rfl⟩
    have hyields := (matches_declaration_and_statement σ.options budget).2.yieldsAt hbound'
      hstatement hkinds' hnext hclosed (σ := σ.ahead (code.length + 1)) rfl hg
    refine alternative_halts he h rfl (by omega) hcode hclean h₁ hkinds hyields
      (body.before_of_lower? (h.before.ahead _) hg) (body.isError_of_mem_warnings _) ?_
    exact hother (σ := (σ.past (σ.skip code (g.code.length + 1) ++ g)).ahead 1) hstop
      (length_drop_le (Nat.le_succ_of_le hbound') _)
      (by simpa [Item.kinds] using kinds_drop _ (hkinds'.trans (List.append_cons ..))) hk hclosed'
      hg₁ hstrays

theorem halts_loop {c : Expr .relation} {body : Stmt} (hbody : body.Halts) :
    (Stmt.loop c body).Halts := by
  refine halts_of_form ?_
  intro budget s σ o d f k rest e more hstop h hclean hbound hkinds hk hclosed hlower hstrays
  obtain ⟨code, hcode, g, hg, -⟩ := Stmt.lower?_loop.mp hlower
  -- while the body is read, the end of the loop is a label and not yet an offset
  rw [(body.tamed true).lower?_within_exits d.labels.length, Option.map_eq_some_iff] at hg
  obtain ⟨f, hf, -⟩ := hg
  have hkinds : s.kinds = .keyword .while :: (c.conditionKinds ++ (body.kinds ++ k :: rest)) := by
    simpa [Stmt.kinds] using hkinds
  have he := (reads_expression σ.options (budget + 1)).mono (Nat.le_succ _)
  have hsettled := h.ready.settled
  have hlook := State.lookahead_of_kinds hkinds
  refine statement_ends (firstOf_pass (block_refuses hsettled hlook (by simp))
    (firstOf_pass (conditional_refuses hsettled hlook (by simp)) (Halts.bind ?_ _)))
  refine ends_of_accept (by simp) (congrFun (loop_eq _ _) _) h hkinds fun {s₁} h₁ hlength => ?_
  exact loopRest_halts he h rfl (by omega) hcode hclean h₁ hkinds
    (hbody (σ := (σ.within (σ.pendingExits d.labels.length)).ahead (code.length + 1)) hstop
      (length_drop_le hbound _) (kinds_drop (.keyword .while :: c.conditionKinds) hkinds) hk hclosed
      hf hstrays)

/-- The statements that begin with a word of their own are tried after all others, which this word
refuses. -/
theorem words_ends {Q : Bool → State → Prop} {E : Halt → State → Prop} {w : Keyword}
    (hsettled : s.recovering = false) (hlook : s.lookahead.kind = .keyword w)
    (hw : w ≠ .if ∧ w ≠ .while ∧ w ≠ .printf) (hbegins : (Token.Kind.keyword w).beginsExpr = false)
    (h : Ends (firstOf (bugStatement (statement σ.options budget) ::
      if σ.options.stopStatements then stopStatements (expression σ.options (budget + 1)) else []))
      s Q E) : Ends (statement σ.options (budget + 1)) s Q E :=
  statement_ends (firstOf_pass (block_refuses hsettled hlook (by simp))
    (firstOf_pass (conditional_refuses hsettled hlook (by simpa using hw.1))
    (firstOf_pass (loop_refuses hsettled hlook (by simpa using hw.2.1))
    (firstOf_pass (expressionStatement_refuses hsettled hlook hbegins)
    (firstOf_pass (semicolon_refuses hsettled hlook (by simp))
    (firstOf_pass (printStatement_refuses hsettled hlook (by simpa using hw.2.2)) h))))))

theorem halts_bug {body : Stmt} (hbody : body.Halts) : (Stmt.bug body).Halts := by
  refine halts_of_form ?_
  intro budget s σ o d f k rest e more hstop h hclean hbound hkinds hk hclosed hlower hstrays
  have hkinds : s.kinds = .keyword .bug :: (body.kinds ++ .symbol .semicolon :: k :: rest) := by
    simpa [Stmt.kinds] using hkinds
  refine words_ends h.ready.settled (State.lookahead_of_kinds hkinds) (by simp) rfl
    (Halts.bind ?_ _)
  refine ends_of_accept (by simp) rfl h hkinds fun {s₁} h₁ hlength => ?_
  exact Halts.bind (Halts.bind (hbody (σ := σ) hstop (length_drop_le hbound _)
    (kinds_drop [.keyword .bug] hkinds)
    (body.goesOn_of_ends (by simp) Expr.goesOn_semicolon) hclosed
    hlower hstrays h₁.here h₁.passes.tokens (h₁.passes.clean hclean (by simp))) _) _

/-- A form is refused where another token than its keyword is ahead, and nothing changes. -/
theorem accept_refuses {w : Keyword} {p : Production Bool} (hsettled : s.recovering = false)
    (hlook : s.lookahead.kind ≠ .keyword w) :
    (do if ← accept (.keyword w) then p else return false : Production Bool) s = .ok false s := by
  have haccept : accept (.keyword w) s = .ok false s :=
    if_neg (by simpa [State.current?, hsettled] using hlook)
  exact bind_eq_ok.mpr ⟨false, s, haccept, rfl⟩

theorem halts_leave (exit : Exit) : (Stmt.leave exit).Halts := by
  refine halts_of_form ?_
  intro budget s σ o d f k rest e more hstop h hclean hbound hkinds hk hclosed hlower hstrays
  -- within a loop the statement would not be stray
  have hloop : σ.loop = none := by
    cases hloop : σ.loop with
    | none => rfl
    | some exits => simp [Stmt.strays, hloop] at hstrays
  obtain ⟨rfl, -⟩ : ⟨s.lookahead.position, exit.stray⟩ = e ∧ more = [] := by
    simpa [Stmt.strays, hloop, State.tokens] using hstrays
  have hkinds : s.kinds = .keyword exit.word :: (.symbol .semicolon :: k :: rest) := by
    simpa [Stmt.kinds] using hkinds
  have hsettled := h.ready.settled
  have hlook := State.lookahead_of_kinds hkinds
  have hhalts := leaveStatement_halts h hclean hloop hkinds
  cases exit with
  | «break» =>
    refine words_ends hsettled hlook (by simp [Exit.word]) rfl (firstOf_pass
      (accept_refuses hsettled (by simp [hlook, Exit.word])) ?_)
    rw [if_pos hstop]
    exact firstOf_pass (accept_refuses hsettled (by simp [hlook, Exit.word])) (Halts.bind hhalts _)
  | «continue» =>
    refine words_ends hsettled hlook (by simp [Exit.word]) rfl (firstOf_pass
      (accept_refuses hsettled (by simp [hlook, Exit.word])) ?_)
    rw [if_pos hstop]
    exact firstOf_pass (accept_refuses hsettled (by simp [hlook, Exit.word]))
      (firstOf_pass (accept_refuses hsettled (by simp [hlook, Exit.word])) (Halts.bind hhalts _))

theorem halts_method {type : TypeName} {x : String} {ds : List Declarator} {comma : Bool}
    {body : Items} (hbody : body.Halts) : (Item.method type x ds comma body).Halts := by
  intro budget σ f ts k rest e more hstop hbound hkinds hk hclosed hlower hstrays s o d h htokens
    hclean
  subst htokens
  obtain ⟨budget, rfl⟩ := State.exists_budget hbound
  obtain ⟨g, hg, ⟨hfresh, hwell⟩, -⟩ := Item.lower?_method.mp hlower
  have hkinds : s.kinds = .keyword type.word :: .identifier x :: .symbol .leftParen ::
      (Declarator.parameterKinds ds comma ++ ((Stmt.block body).kinds ++ k :: rest)) := by
    simpa [State.kinds, Item.kinds, Stmt.kinds, Declarator.headerKinds_eq] using hkinds
  have hstrays : body.strays false
      ((s.tokens.drop ((Declarator.parameterKinds ds comma).length + 3)).drop 1) = e :: more := by
    rw [List.drop_drop, Nat.add_right_comm, Nat.add_comm _ 3, Declarator.length_headerKinds type x]
    exact hstrays
  have hblock := block_halts hbody (σ := σ.body type.ty x ds) hstop
    (Nat.le_succ_of_le (length_drop_le hbound _)) (kinds_drop (.keyword type.word ::
      .identifier x :: .symbol .leftParen :: Declarator.parameterKinds ds comma) hkinds) hclosed hg
    hstrays
  refine item_ends h.ready.settled (Halts.bind ((declarationForm_goes (Q := fun _ => False) h hkinds
    fun _ h₁ => ?_).imp fun _ _ hQ => hQ.2) _)
  refine (accept_takes h₁ (by simp) (State.lookahead_of_kinds (h₁.passes.kinds_eq hkinds))).bind ?_
  rintro _ s₂ ⟨rfl, h₂⟩
  have hlength₂ := h₂.passes.length_tokens
  simp only [List.length_append, List.length_cons, List.length_nil] at hlength₂
  have htokens : s₂.tokens.drop (Declarator.parameterKinds ds comma).length =
      s.tokens.drop ((Declarator.parameterKinds ds comma).length + 3) := drop_tokens h₂ _
  have hclean₂ : s₂.Clean := h₂.passes.clean hclean (by simp)
  exact method_halts h₂.here hclean₂ (by omega) (h₂.passes.kinds_eq hkinds) hfresh hwell
    (htokens ▸ hblock) _

theorem halts_statement {t : Stmt} (ht : t.Halts) : (Item.statement t).Halts := by
  intro budget σ f ts k rest e more hstop hbound hkinds hk hclosed hlower hstrays s o d h htokens
    hclean
  obtain ⟨g, hg⟩ : ∃ g, (t.tamed σ.loop.isSome).lower? σ = some g := ⟨f, hlower⟩
  have hlook : s.lookahead.kind.beginsStmt = true := by
    obtain ⟨k', ks, hks, hk'⟩ := t.kinds_eq_cons
    have hkinds : s.kinds = k' :: (ks ++ k :: rest) := by
      rw [State.kinds, htokens, hkinds, Item.kinds, hks]
      rfl
    rwa [State.lookahead_of_kinds hkinds]
  exact item_ends h.ready.settled (firstOf_pass (declaration_refuses h.ready.settled hlook)
    (Halts.bind (ht hstop hbound hkinds hk hclosed hg hstrays h htokens hclean) _))

end Production

/-- Nothing is stray in a statement without statements inside, so there is nothing to show for
it. -/
theorem Stmt.Halts.of_strays {t : Stmt} (h : ∀ inLoop ts, t.strays inLoop ts = []) : t.Halts := by
  intro _ _ _ _ _ _ _ _ _ _ _ _ _ _ hstrays
  simp [h] at hstrays

mutual

theorem Stmt.halts : ∀ t : Stmt, t.Halts
  | .block items => Production.halts_block items.halts
  | .branch _ body => Production.halts_branch body.halts
  | .choice _ body other => Production.halts_choice body.halts other.halts
  | .loop _ body => Production.halts_loop body.halts
  | .bug body => Production.halts_bug body.halts
  | .leave exit => Production.halts_leave exit
  | .expression _ => .of_strays fun _ _ => rfl
  | .empty => .of_strays fun _ _ => rfl
  | .print _ => .of_strays fun _ _ => rfl
  | .ret _ => .of_strays fun _ _ => rfl

theorem Item.halts : ∀ i : Item, i.Halts
  | .field _ _ => by
    intro _ _ _ _ _ _ _ _ _ _ _ _ _ _ hstrays
    cases hstrays
  | .method _ _ _ _ body => Production.halts_method body.halts
  | .statement t => Production.halts_statement t.halts

/-- **The first stray statement ends the pass**, if all around it means something.  By recursion on
the tree, with one lemma for each form. -/
theorem Items.halts : ∀ items : Items, items.Halts
  | .nil => by
    intro _ _ _ _ _ _ _ _ _ _ _ _ _ _ _ _ _ _ _ _ _ _ hstrays
    cases hstrays
  | .cons i rest => Production.halts_cons i.halts rest.halts

end

/-! ### What ends a pass -/

/-- What ended a run that began with the given tokens ahead was a broken invariant, or a stray
statement at one of the tokens. -/
def Halt.Justified (options : Options) (tokens : List Token) : Halt → Prop
  | .broken _ => True
  | .fatal e => options.stopStatements = true ∧
    ∃ t ∈ tokens, t.kind = .keyword e.stray.word ∧ t.position = e.position

/-- A stray statement at a token stands at a token of all that is ahead before. -/
theorem Halt.Justified.of_suffix {options : Options} {tokens tokens' : List Token} {h : Halt}
    (hsuffix : tokens' <:+ tokens) (hh : h.Justified options tokens') :
    h.Justified options tokens := by
  cases h with
  | broken f => trivial
  | fatal e =>
    obtain ⟨hstop, t, ht, hkind⟩ := hh
    exact ⟨hstop, t, hsuffix.subset ht, hkind⟩

namespace Production

variable {α β : Type} {options : Options}

/-- A production that is ended by stray statements only, and goes forward otherwise.  The token at
fault is one of those that were ahead at the beginning. -/
def Justified (options : Options) (p : Production α) : Prop :=
  ∀ s, Ends p s (fun _ s' => s.Leads s') fun h _ => h.Justified options s.tokens

theorem justified_bind {p : Production α} {f : α → Production β} (hp : Justified options p)
    (hf : ∀ a, Justified options (f a)) : Justified options (p >>= f) :=
  fun s => (hp s).bind fun a s₁ h₁ => (hf a s₁).mono (fun _ _ h => h₁.trans h) fun _ _ h =>
    h.of_suffix h₁.tokens_suffix

theorem justified_assemble (c : Assembler.Call) : Justified options (assemble c) :=
  fun _ => ends_assemble (fun _ _ _ => .of_eq rfl rfl rfl) fun _ _ _ => trivial

theorem justified_scope (c : Scopes.Call) : Justified options (scope c) :=
  fun _ => ends_scope (fun _ _ _ => .of_eq rfl rfl rfl) fun _ _ _ => trivial

/-- A last step that breaks at most an invariant. -/
theorem Justified.ensuring {p : Production α} (hp : Justified options p) {last : Production Unit}
    (hlast : Justified options last) : Justified options (ensuring p last) := by
  intro s
  refine Ends.ensuring ((hp s).mono ?_ fun _ s₁ h => ?_)
  · exact fun _ s₁ h₁ => (hlast s₁).mono (fun _ _ h => h₁.trans h) fun _ _ h =>
      h.of_suffix h₁.tokens_suffix
  · -- however the last step ends, the reason is the one of the step before
    exact ends_of_forall (fun _ _ => h) fun _ _ => h

theorem justified_modify {g : State → State} (hg : ∀ s : State, s.Leads (g s)) :
    Justified options (modify g) := fun s => hg s

theorem justified_closed : Closed fun _ p => Justified options p where
  pure _ s := .refl s
  bind := justified_bind
  view _ s := .refl s
  accept? _ s := ends_accept? (fun _ _ => .advance s) fun _ => .refl s
  accept _ s := ends_accept (fun _ => .advance s) fun _ => .refl s
  error e s := .errorAt s _ e
  emit _ := justified_assemble _
  returnType := justified_assemble _
  errorAt p e s := .errorAt s p e

theorem justified_bracketed : Bracketed fun _ p => Justified options p where
  toClosed := justified_closed
  assemble := justified_assemble
  stay c _ := justified_scope c
  inLoop {_ _} hs _ := justified_bind (justified_modify fun _ => .of_eq rfl rfl rfl) fun _ =>
    hs.ensuring (justified_modify fun _ => .of_eq rfl rfl rfl)
  inMethod {_ _} hs _ := justified_bind (justified_modify fun _ => .of_eq rfl rfl rfl) fun _ =>
    hs.ensuring (justified_modify fun _ => .of_eq rfl rfl rfl)
  inScope {_ _} hs := justified_bind (justified_scope .enter) fun _ =>
    justified_bind (justified_closed.view _) fun _ =>
    justified_bind (justified_modify fun _ => .of_eq rfl rfl rfl) fun _ =>
    hs.ensuring (justified_bind (justified_modify fun _ => .of_eq rfl rfl rfl) fun _ =>
      justified_scope .exit)
  bugStatement := justified_closed.toSequential.bugStatement fun _ _ =>
    justified_modify fun s => .report s rfl
  note _ := justified_modify fun _ => .of_eq rfl rfl rfl
  broken _ _ := trivial
  settle := justified_modify fun _ => .of_eq rfl rfl rfl
  skipUnexpected := justified_modify .skipUnexpected

/-- What ends the pass is the keyword ahead, whose position was saved before it was passed. -/
theorem justified_leaveStatement (hstop : options.stopStatements = true) (stray : Stray)
    (target : Loop → Label) : Justified options (leaveStatement stray.word stray target) := by
  intro s
  have hC : Closed fun _ p => Justified options p := justified_closed
  refine ends_bind.mpr (ends_view.mpr (ends_bind.mpr
    (ends_accept (fun hcurrent => ?_) fun _ => ?_)))
  · obtain ⟨-, hlook⟩ := State.current?_eq_some.mp hcurrent
    have hadvance := State.Leads.advance s
    refine ends_bind.mpr (ends_view.mpr ?_)
    cases s.advance.loops.head? with
    | none => exact ⟨hstop, s.lookahead, .head _, hlook, rfl⟩
    | some loop =>
      have hrest : Justified options (do
          expect .semicolon
          assemble (.branch (target loop))
          return true) :=
        hC.bind (hC.expect _) fun _ =>
          hC.bind (justified_assemble (.branch _)) fun _ => hC.pure true
      exact (hrest _).mono (fun _ _ h => hadvance.trans h) fun _ _ h =>
        h.of_suffix hadvance.tokens_suffix
  · exact .refl s

/-- **Nothing but a stray statement ends a production**, as long as no invariant is broken. -/
theorem justified_grammar (options : Options) : Grammar options fun _ p => Justified options p :=
  justified_bracketed.grammar (fun hstop => justified_leaveStatement hstop .break _)
    fun hstop => justified_leaveStatement hstop .continue _

end Production

open Production

/-! ### Whole sources -/

/-- The stray statements of a source stand one behind the other, as its tokens do. -/
theorem Writes.pairwise_strays {source : String} {items : Items} {tokens : List Token}
    (h : Writes source items tokens) (inLoop : Bool) :
    (items.strays inLoop tokens).Pairwise fun e e' => e.position < e'.position := by
  have hpairwise := (pairwise_sourceTokens source).map Token.position fun _ _ ht => ht
  rw [h.tokens_eq] at hpairwise
  have hsublist := (items.strays_sublist inLoop tokens).trans ((List.take_sublist _ _).map _)
  exact List.pairwise_map.mp (hpairwise.sublist hsublist)

/-- The pass over a source is ended by the first stray statement, before any error is reported. -/
theorem parse_of_strays {options : Options} {source : String} {items : Items} {tokens : List Token}
    {f : Fragment} (hstop : options.stopStatements = true) (h : Writes source items tokens)
    (hclosed : items.closed = true)
    (hlower : (items.tamed false).lower? (.entry options) = some f) {e : FatalError}
    {more : List FatalError} (hstrays : items.strays false tokens = e :: more) :
    (parse options source).outcome = .error (.fatal e) ∧ (parse options source).state.Clean := by
  obtain ⟨hscans, hkinds⟩ := h
  obtain ⟨assembler, log, hshows, hparse⟩ := parse_of_items options source
  obtain ⟨hat, htokens, hreports⟩ := begunState_at hscans hshows log
  have hlength : (begunState source assembler log).tokens.length = (lexemes source).length := by
    simp [htokens, scans_iff.mp hscans]
  have hclean : (begunState source assembler log).Clean := by
    intro d hd
    rw [hreports] at hd
    cases hd
  -- at the beginning all tokens of the tree are ahead, and nothing has been reported
  have hhalts := items.halts (runs_items options (lexemes source).length) hstop hat hclean
    (Nat.le_of_eq hlength) (Nat.le_succ_of_le (Nat.le_of_eq hlength))
    (by rw [State.kinds, htokens, hkinds]) hclosed hlower (htokens ▸ hstrays)
  obtain ⟨hok, herror⟩ := hparse (Q := fun _ => False) hhalts
  cases houtcome : (parse options source).outcome with
  | ok matched => exact (hok matched houtcome).elim
  | error h =>
    obtain ⟨rfl, hclean'⟩ := herror h houtcome
    exact ⟨rfl, hclean'⟩

/-- A source is given up exactly if the pass over it is ended by a stray statement.  All other ends
lead to other failures or to a program. -/
theorem compile_eq_aborted {options : Options} {source : String} {e : FatalError}
    {diagnostics : Diagnostics} : compile options source = .error (.aborted e diagnostics) ↔
      (parse options source).outcome = .error (.fatal e) ∧
      (parse options source).state.diagnostics = diagnostics := by
  obtain ⟨log, hcompile⟩ := compile_eq options source
  rw [hcompile]
  cases (parse options source).outcome with
  | error h => cases h <;> simp
  | ok matched =>
    cases matched with
    | false => simp
    | true => cases Assembler.finish ⟨(parse options source).state.assembler, log⟩ <;> simp

/-- **A source is given up at its first stray statement.**  Let a source be one of a tree that is
fully punctuated and in order but for stray statements.  The source is given up at the first one of
them, before any error is reported.  And whatever the source and the options are, a source that is
given up has been given up at a stray statement, and these are enabled. -/
theorem compile_aborted (options : Options) (source : String) :
    (options.typing = .declared → options.stopStatements = true → ∀ items tokens,
      Writes source items tokens → items.braced = true → (items.tamed false).InOrder →
      ∀ e more, items.strays false tokens = e :: more →
        (∀ e' ∈ more, e.position < e'.position) ∧
        ∃ diagnostics, compile options source = .error (.aborted e diagnostics) ∧
          ∀ d ∈ diagnostics.entries, d.isError = false) ∧
    ∀ e diagnostics, compile options source = .error (.aborted e diagnostics) →
      options.stopStatements = true ∧
      ∃ t ∈ sourceTokens source, t.kind = .keyword e.stray.word ∧ t.position = e.position := by
  constructor
  · intro htyping hstop items tokens hwrites hbraced horder e more hstrays
    -- the stray statements are in the order of their positions, so the others come later
    have hpairwise := hwrites.pairwise_strays false
    rw [hstrays, List.pairwise_cons] at hpairwise
    obtain ⟨program, hprogram⟩ := horder.exists_program? htyping hstop
    obtain ⟨f, hlower, -⟩ := Items.program?_eq_some.mp hprogram
    obtain ⟨houtcome, hclean⟩ :=
      parse_of_strays hstop hwrites (items.closed_of_braced hbraced) hlower hstrays
    refine ⟨hpairwise.1, _, compile_eq_aborted.mpr ⟨houtcome, rfl⟩, ?_⟩
    exact fun d hd => hclean d (Array.mem_toList_iff.mpr hd)
  · intro e diagnostics hcompile
    obtain ⟨houtcome, -⟩ := compile_eq_aborted.mp hcompile
    obtain ⟨assembler, log, -, hparse⟩ := parse_of_items options source
    have hjustified := (hparse ((justified_grammar options).items (lexemes source).length
      (lexemes source).length (begunState source assembler log))).2 _ houtcome
    obtain ⟨hstop, t, ht, hkind⟩ := hjustified
    have htokens : (begunState source assembler log).tokens = sourceTokens source :=
      State.tokens_advance_start source
    exact ⟨hstop, t, htokens ▸ ht, hkind⟩

/-- A loop around a method with a stray statement in it, and with one that is not stray behind the
method. -/
def strayItems : Items :=
  .cons (.statement (.loop (.comparison (.plain (.number 1)) .less (.plain (.number 2)))
    (.block (.cons (.method .void "f" [] false (.cons (.statement (.leave .continue)) .nil))
      (.cons (.statement (.leave .break)) .nil))))) (.cons (.statement (.leave .break)) .nil)

/-- The text of that tree. -/
def straySource : String := "while (1 < 2) \x7b void f() \x7b continue; \x7d break; \x7d break;"

/-- The first one ends the pass, and not the last one. -/
theorem compile_aborted_nested : strayItems.braced = true ∧ (strayItems.tamed false).InOrder ∧
    ∃ tokens, Writes straySource strayItems tokens ∧ (strayItems.strays false tokens).length = 2 ∧
    ∃ diagnostics, compile {} straySource =
      .error (.aborted ⟨⟨1, 28⟩, .continue⟩ diagnostics) := by
  have hbraced : strayItems.braced = true := by decide
  have hwrites : Writes straySource strayItems ((lexemes straySource).map Lexeme.token) :=
    ⟨scans_iff.mpr (by decide +kernel), by decide +kernel⟩
  have hstrays : strayItems.strays false ((lexemes straySource).map Lexeme.token) =
      [⟨⟨1, 28⟩, .continue⟩, ⟨⟨1, 49⟩, .break⟩] := by decide +kernel
  have horder : (strayItems.tamed false).InOrder := by
    have hnumber {scopes : List Frame} (n : Nat) : (Expr.plain (.number n)).HasType scopes .int :=
      .first (.unsigned (.factor .number))
    refine ⟨_, .cons (.statement (.loop (.comparison (hnumber 1) (hnumber 2) rfl) rfl (.block
      (.cons (.method rfl ?_ ?_ ?_ ?_ (.cons (.statement .empty) .nil))
        (.cons (.statement (.leave rfl)) .nil))))) (.cons (.statement .empty) .nil)⟩
    · simp
    · simp
    · simp [Method.maxParameters]
    · simp
  obtain ⟨-, diagnostics, hcompile, -⟩ :=
    (compile_aborted {} straySource).1 rfl rfl _ _ hwrites hbraced horder _ _ hstrays
  exact ⟨hbraced, horder, _, hwrites, by rw [hstrays]; rfl, diagnostics, hcompile⟩

end OnePass
