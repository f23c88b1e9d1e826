import OnePass.Proofs.Expressions

/-!
# Trees and their tokens

Two trees that mean something are told apart by their tokens, as long as neither of them would
have gone on with what follows it.  So a source is read as one tree only, whatever the names
in it stand for and whatever types they have.

A tree that means something is needed for one thing: no assignment is a left operand in it.
As tokens, `x = 1; + 2` is an assignment and a signed number after it.

## Main definitions

* `Expr.Meaningful` — the expression means something somewhere.
* `Expr.StopsAt`, `Stmt.StopsAt` — reading a tree does not go on with the tokens behind it.
* `Expr.Determined` — expressions up to a number of tokens are told apart by them.
* `Lead` — the forms of items, as far as their first token tells.

## Main results

* `Ladder.determined` — operators and their operands can be read in one way only.
* `Expr.determined` — **expressions are told apart by their tokens**.
* `Items.eq_of_kinds` — **so are statement lists**.
-/

namespace OnePass

/-! ### Expressions -/

namespace Expr

variable {r : Rung}

/-- The expression means something somewhere, that is, for some names in scope and some place in the
code. -/
def Meaningful (e : Expr r) : Prop := ∃ σ ty code, e.lower? σ = some (ty, code)

/-- Reading the expression does not go on with the tokens behind it.  At the end of all tokens there
is nothing to go on with. -/
def StopsAt (e : Expr r) (rest : List Token.Kind) : Prop := ∀ k ∈ rest.head?, e.goesOn k = false

/-- Among expressions that mean something, those with at most `n` tokens are told apart from
all others by these tokens. -/
def Determined (n : Nat) (r : Rung) : Prop :=
  ∀ ⦃e e' : Expr r⦄, e.kinds.length ≤ n → e.Meaningful → e'.Meaningful →
    ∀ ⦃rest rest' : List Token.Kind⦄, e.kinds ++ rest = e'.kinds ++ rest' →
      e.StopsAt rest → e'.StopsAt rest' → e = e' ∧ rest = rest'

/-- An assignment leaves no value, however high up the ladder it is taken for an expression. -/
theorem eq_void_of_isAssign {σ : Site} : ∀ {r : Rung} {e : Expr r} {ty : Ty}
    {code : List Operation}, e.isAssign = true → e.lower? σ = some (ty, code) → ty = .void
  | _, .assign _ _, _, _, _, h => by
    obtain ⟨-, -, -, -, -, -, -, rfl, -⟩ := lower?_assign.mp h
    rfl
  | _, .factor e, _, _, hassign, h => eq_void_of_isAssign (e := e) hassign h
  | _, .unsigned e, _, _, hassign, h => eq_void_of_isAssign (e := e) hassign h
  | _, .first e, _, _, hassign, h => eq_void_of_isAssign (e := e) hassign h
  | _, .single e, _, _, hassign, h => eq_void_of_isAssign (e := e) hassign h

theorem isAssign_eq_false {σ : Site} {e : Expr r} {ty : Ty} {code : List Operation}
    (h : e.lower? σ = some (ty, code)) (hne : ty ≠ .void) : e.isAssign = false :=
  Bool.eq_false_iff.mpr fun hassign => hne (eq_void_of_isAssign hassign h)

/-- There are no expressions without tokens. -/
theorem determined_zero : Determined 0 r := by
  intro e e' hlength
  obtain ⟨k, ks, hks, -⟩ := e.kinds_eq_cons
  simp [hks] at hlength

theorem Meaningful.of_assign {target : String} {value : Expr .relation}
    (h : (Expr.assign target value).Meaningful) : value.Meaningful := by
  obtain ⟨σ, ty, code, h⟩ := h
  obtain ⟨found, values, -, -, hvalue, -⟩ := lower?_assign.mp h
  exact ⟨σ, found, values, hvalue⟩

/-- A name and an assignment are told apart by the equal sign, with which the name would have gone
on. -/
theorem StopsAt.not_equal {text : String} {rest : List Token.Kind}
    (h : (Expr.name text).StopsAt rest) (ks : List Token.Kind) : rest ≠ .symbol .equal :: ks := by
  rintro rfl
  simpa [goesOn] using h (.symbol .equal) rfl

/-- Primaries are told apart by their first token, and names from assignments by the one behind.
The value of an assignment is shorter than the assignment. -/
theorem determined_primary {n : Nat} (ih : Determined n .relation) :
    Determined (n + 1) .primary := by
  intro e e' hlength he he' rest rest' hkinds hstop hstop'
  cases e with
  | number value =>
    cases e' with
    | number value' => simpa [kinds] using hkinds
    | _ => simp [kinds] at hkinds
  | boolean value =>
    cases e' with
    | boolean value' => simpa [kinds] using hkinds
    | _ => simp [kinds] at hkinds
  | name text =>
    cases e' with
    | name text' => simpa [kinds] using hkinds
    | assign target' value' =>
      simp only [kinds, List.cons_append, List.nil_append, List.cons.injEq] at hkinds
      exact absurd hkinds.2 (hstop.not_equal _)
    | _ => simp [kinds] at hkinds
  | assign target value =>
    cases e' with
    | name text =>
      simp only [kinds, List.cons_append, List.nil_append, List.cons.injEq] at hkinds
      exact absurd hkinds.2.symm (hstop'.not_equal _)
    | assign target' value' =>
      simp only [kinds, List.cons_append, List.nil_append, List.append_assoc, List.cons.injEq,
        true_and, Token.Kind.identifier.injEq] at hkinds
      obtain ⟨rfl, hkinds⟩ := hkinds
      simp only [kinds, List.length_append, List.length_cons, List.length_nil] at hlength
      -- both values end before a semicolon
      obtain ⟨rfl, hrest⟩ := ih (by omega) he.of_assign he'.of_assign hkinds
        (by simp [StopsAt]) (by simp [StopsAt])
      exact ⟨rfl, (List.cons.inj hrest).2⟩
    | _ => simp [kinds] at hkinds

end Expr

/-! ### Operators -/

namespace Production.Ladder

variable {ω : Type} {operators : Operators ω} {r₁ r₀ r : Rung} (L : Ladder operators r₁ r₀ r)
  {rest rest' : List Token.Kind}

/-- No operator of the level follows. -/
def NoOperator (operators : Operators ω) (rest : List Token.Kind) : Prop :=
  ∀ k ∈ rest.head?, k.operator? operators.ofSymbol? = none

include L in
/-- Where no operator follows, none is read. -/
theorem NoOperator.ne_cons (h : NoOperator operators rest) (op : ω) (ks : List Token.Kind) :
    rest ≠ .symbol (operators.symbol op) :: ks := by
  rintro rfl
  have hop := h _ rfl
  simp [Token.Kind.operator?, L.ofSymbol?_symbol] at hop

/-- The parts of a tree that means something mean something, and what stands to the left of an
operator is no assignment. -/
theorem meaningful_join {left : Expr r} {op : ω} {right : Expr r₀}
    (h : (L.join left op right).Meaningful) :
    left.Meaningful ∧ right.Meaningful ∧ left.isAssign = false := by
  obtain ⟨σ, ty, code, h⟩ := h
  obtain ⟨tl, cl, tr, cr, hleft, hright, hty, -⟩ := L.lower?_join.mp h
  exact ⟨⟨σ, tl, cl, hleft⟩, ⟨σ, tr, cr, hright⟩,
    Expr.isAssign_eq_false hleft (Ty.operate?_eq_some.mp hty).1⟩

/-- What operators are joined to means something if the whole does. -/
theorem meaningful_of_fold {left : Expr r} {ops : List (ω × Expr r₀)}
    (h : (L.fold left ops).Meaningful) : left.Meaningful := by
  obtain ⟨σ, ty, code, h⟩ := h
  obtain ⟨tl, cl, hleft⟩ := L.exists_lower?_of_fold h
  exact ⟨σ, tl, cl, hleft⟩

/-- A tree in front of operators of the level stops there, and so does one in front of what follows
the whole tree. -/
theorem stopsAt_fold {r₂ : Rung} {e : Expr r₂} {left : Expr r} {ops : List (ω × Expr r₀)}
    {ks : List Token.Kind} (hcloses : ∀ op, e.goesOn (.symbol (operators.symbol op)) = false)
    (hstop : ops = [] → e.StopsAt rest) (hkinds : (L.fold left ops).kinds = left.kinds ++ ks)
    (hnext : ops ≠ [] → ∃ op rest, ks = .symbol (operators.symbol op) :: rest) :
    e.StopsAt (ks ++ rest) := by
  by_cases hops : ops = []
  · subst hops
    obtain rfl : ks = [] := by simpa using hkinds
    exact hstop rfl
  · obtain ⟨op, ks, rfl⟩ := hnext hops
    rintro k ⟨⟩
    exact hcloses op

/-- The right operand of the last operator stops where the tree does. -/
theorem stopsAt_right {left : Expr r} {op : ω} {right : Expr r₀}
    (h : (L.join left op right).StopsAt rest) : right.StopsAt rest := by
  intro k hk
  have hgoes := h k hk
  rw [L.goesOn_join, Bool.or_eq_false_iff] at hgoes
  exact hgoes.1

/-- An operator and its right operand are told apart by their tokens, if what stands to the left is
the same. -/
theorem eq_of_join {n : Nat} (hright : Expr.Determined n r₀) {left : Expr r} {op op' : ω}
    {right right' : Expr r₀} (hlength : right.kinds.length ≤ n)
    (hmeans : right.Meaningful) (hmeans' : right'.Meaningful)
    (h : (L.join left op right).kinds ++ rest = (L.join left op' right').kinds ++ rest')
    (hstop : right.StopsAt rest) (hstop' : right'.StopsAt rest') : op = op' ∧ right = right' := by
  rw [L.kinds_join, L.kinds_join] at h
  simp only [List.append_assoc, List.cons_append, List.append_cancel_left_eq, List.cons.injEq,
    Token.Kind.symbol.injEq] at h
  obtain ⟨hsymbol, hrights⟩ := h
  have hop := L.ofSymbol?_symbol op
  rw [hsymbol, L.ofSymbol?_symbol] at hop
  exact ⟨(Option.some.inj hop).symm, (hright hlength hmeans hmeans' hrights hstop hstop').1⟩

/-- Operators cannot be left out where they are to be read: a tree with none behind it would go on
with them. -/
theorem kinds_ne_fold (hrest : NoOperator operators rest) (left : Expr r) (op : ω × Expr r₀)
    (ops : List (ω × Expr r₀)) :
    left.kinds ++ rest ≠ (L.fold left (op :: ops)).kinds ++ rest' := by
  obtain ⟨ks, hks, hnext⟩ := L.kinds_fold left (op :: ops)
  obtain ⟨op', ks', rfl⟩ := hnext (List.cons_ne_nil op ops)
  rw [hks, List.append_assoc]
  exact fun h => hrest.ne_cons L op' _ (List.append_cancel_left h)

/-- Operators behind the same tree, and their operands, are told apart by their tokens.  They are
read from the left, so the trees grow in step. -/
theorem eq_of_fold {n : Nat} (hright : Expr.Determined n r₀) (hrest : NoOperator operators rest)
    (hrest' : NoOperator operators rest') : ∀ {ops ops' : List (ω × Expr r₀)} {left : Expr r},
    (L.fold left ops).kinds.length ≤ n → (L.fold left ops).Meaningful →
    (L.fold left ops').Meaningful →
    (L.fold left ops).kinds ++ rest = (L.fold left ops').kinds ++ rest' →
    (L.fold left ops).StopsAt rest → (L.fold left ops').StopsAt rest' →
    L.fold left ops = L.fold left ops' ∧ rest = rest' := by
  -- by induction on the operators, with the tree read so far as `left`
  intro ops
  induction ops with
  | nil =>
    intro ops' left hlength hmeans hmeans' hkinds hstop hstop'
    cases ops' with
    | nil => exact ⟨rfl, List.append_cancel_left hkinds⟩
    | cons op' ops' => exact absurd hkinds (L.kinds_ne_fold hrest left op' ops')
  | cons op ops ih =>
    intro ops' left hlength hmeans hmeans' hkinds hstop hstop'
    cases ops' with
    | nil => exact absurd hkinds.symm (L.kinds_ne_fold hrest' left op ops)
    | cons op' ops' =>
      obtain ⟨op, right⟩ := op
      obtain ⟨op', right'⟩ := op'
      rw [fold_cons] at hlength hmeans hkinds hstop
      rw [fold_cons] at hmeans' hkinds hstop'
      obtain ⟨ks, hks, hnext⟩ := L.kinds_fold (L.join left op right) ops
      obtain ⟨ks', hks', hnext'⟩ := L.kinds_fold (L.join left op' right') ops'
      have hjoin := L.meaningful_join (L.meaningful_of_fold hmeans)
      have hjoin' := L.meaningful_join (L.meaningful_of_fold hmeans')
      -- an operand is shorter than the tree that it is part of
      have hle : right.kinds.length ≤ n := by
        rw [hks, L.kinds_join] at hlength
        simp only [List.length_append, List.length_cons] at hlength
        omega
      have hstops : right.StopsAt (ks ++ rest) := L.stopsAt_fold (L.closes · right)
        (fun hops => L.stopsAt_right (by subst hops; exact hstop)) hks hnext
      have hstops' : right'.StopsAt (ks' ++ rest') := L.stopsAt_fold (L.closes · right')
        (fun hops => L.stopsAt_right (by subst hops; exact hstop')) hks' hnext'
      have heq := hkinds
      rw [hks, hks', List.append_assoc, List.append_assoc] at heq
      -- so the same operator is read next, with the same operand, and both trees go on alike
      obtain ⟨rfl, rfl⟩ := L.eq_of_join hright hle hjoin.2.1 hjoin'.2.1 heq hstops hstops'
      exact ih hlength hmeans hmeans' hkinds hstop hstop'

/-- A first operand stops where the tree does that it is all of. -/
theorem stopsAt_base {e₁ : Expr r₁} (h : (L.base e₁).StopsAt rest) : e₁.StopsAt rest := by
  intro k hk
  have hgoes := h k hk
  rw [L.goesOn_base, Bool.or_eq_false_iff] at hgoes
  exact hgoes.1

/-- Behind a tree that stops there is no operator, unless the tree is an assignment. -/
theorem noOperator_of_stopsAt {e₁ : Expr r₁} {ops : List (ω × Expr r₀)}
    (hassign : e₁.isAssign = false) (h : (L.fold (L.base e₁) ops).StopsAt rest) :
    NoOperator operators rest := by
  intro k hk
  refine L.operator?_eq_none_of_fold (fun hgoes => ?_) (h k hk)
  rw [L.goesOn_base, hassign, Bool.or_eq_false_iff] at hgoes
  simpa using hgoes.2

/-- An assignment has no operators behind it, since it leaves no value for them to work on. -/
theorem eq_nil_of_isAssign {e₁ : Expr r₁} {ops : List (ω × Expr r₀)} (hassign : e₁.isAssign = true)
    (h : (L.fold (L.base e₁) ops).Meaningful) : ops = [] := by
  cases ops with
  | nil => rfl
  | cons op ops =>
    obtain ⟨-, -, hleft⟩ := L.meaningful_join (L.meaningful_of_fold h)
    rw [L.isAssign_base, hassign] at hleft
    cases hleft

include L in
/-- **Operators and their operands can be read in one way only**, if this holds of the operands.
The first operands are the same, and then operators are read in step. -/
theorem determined {n : Nat} (hfirst : Expr.Determined n r₁) (hright : Expr.Determined n r₀) :
    Expr.Determined n r := by
  intro e e' hlength hmeans hmeans' rest rest' hkinds hstop hstop'
  obtain ⟨e₁, ops, rfl⟩ := L.spine e
  obtain ⟨e₁', ops', rfl⟩ := L.spine e'
  change (L.fold (L.base e₁) ops).kinds ++ rest =
    (L.fold (L.base e₁') ops').kinds ++ rest' at hkinds
  obtain ⟨ks, hks, hnext⟩ := L.kinds_fold (L.base e₁) ops
  obtain ⟨ks', hks', hnext'⟩ := L.kinds_fold (L.base e₁') ops'
  have hmeaningful {e₁ : Expr r₁} {ops : List (ω × Expr r₀)}
      (h : (L.fold (L.base e₁) ops).Meaningful) : e₁.Meaningful := by
    obtain ⟨σ, ty, code, h⟩ := L.meaningful_of_fold h
    exact ⟨σ, ty, code, (L.lower?_base σ e₁).symm.trans h⟩
  have hle : e₁.kinds.length ≤ n := by
    change (L.fold (L.base e₁) ops).kinds.length ≤ n at hlength
    rw [hks, L.kinds_base, List.length_append] at hlength
    omega
  have hstops : e₁.StopsAt (ks ++ rest) := L.stopsAt_fold (L.closes_base · e₁)
    (fun hops => L.stopsAt_base (by subst hops; exact hstop)) hks hnext
  have hstops' : e₁'.StopsAt (ks' ++ rest') := L.stopsAt_fold (L.closes_base · e₁')
    (fun hops => L.stopsAt_base (by subst hops; exact hstop')) hks' hnext'
  have heq : e₁.kinds ++ (ks ++ rest) = e₁'.kinds ++ (ks' ++ rest') := by
    rw [hks, hks', L.kinds_base, L.kinds_base] at hkinds
    simpa using hkinds
  -- the first operands are followed by operators of the level or by what follows the whole
  obtain ⟨rfl, -⟩ := hfirst hle (hmeaningful hmeans) (hmeaningful hmeans') heq hstops hstops'
  cases hassign : e₁.isAssign with
  | true =>
    obtain rfl := L.eq_nil_of_isAssign hassign hmeans
    obtain rfl := L.eq_nil_of_isAssign hassign hmeans'
    exact ⟨rfl, List.append_cancel_left hkinds⟩
  | false =>
    exact L.eq_of_fold hright (L.noOperator_of_stopsAt hassign hstop)
      (L.noOperator_of_stopsAt hassign hstop') hlength hmeans hmeans' hkinds hstop hstop'

end Production.Ladder

namespace Expr

/-- No term begins with a sign, so a sign at the front belongs to the first operand of a sum. -/
theorem kinds_ne_sign (sign : Sign) : ∀ {r : Rung}, r = .primary ∨ r = .term →
    ∀ (e : Expr r) (rest ks : List Token.Kind), e.kinds ++ rest ≠ .symbol sign.symbol :: ks
  | _, _, .number _, _, _ => by simp [kinds]
  | _, _, .boolean _, _, _ => by simp [kinds]
  | _, _, .name _, _, _ => by simp [kinds]
  | _, _, .assign _ _, _, _ => by simp [kinds]
  | _, _, .factor e, rest, ks => kinds_ne_sign sign (.inl rfl) e rest ks
  | _, _, .product left op right, rest, ks => by
    simpa [kinds] using
      kinds_ne_sign sign (.inr rfl) left (.symbol op.symbol :: (right.kinds ++ rest)) ks

theorem Meaningful.of_signed {sign : Sign} {e : Expr .term} (h : (Expr.signed sign e).Meaningful) :
    e.Meaningful := by
  obtain ⟨σ, ty, code, h⟩ := h
  obtain ⟨operand, operations, he, -⟩ := lower?_signed.mp h
  exact ⟨σ, operand, operations, he⟩

/-- Whether a first operand has a sign is told by its first token. -/
theorem determined_signed {n : Nat} (h : Determined n .term) : Determined n .signed := by
  intro e e' hlength hmeans hmeans' rest rest' hkinds hstop hstop'
  cases e with
  | unsigned t =>
    cases e' with
    | unsigned t' =>
      obtain ⟨rfl, hrest⟩ := h hlength hmeans hmeans' hkinds hstop hstop'
      exact ⟨rfl, hrest⟩
    | signed sign t' => exact absurd hkinds (kinds_ne_sign sign (.inr rfl) t _ _)
  | signed sign t =>
    cases e' with
    | unsigned t' => exact absurd hkinds.symm (kinds_ne_sign sign (.inr rfl) t' _ _)
    | signed sign' t' =>
      obtain ⟨hsign, hterm⟩ := List.cons.inj hkinds
      obtain rfl : sign = sign' := by cases sign <;> cases sign' <;> first | rfl | cases hsign
      obtain ⟨rfl, hrest⟩ := h (Nat.le_of_succ_le hlength) hmeans.of_signed hmeans'.of_signed
        hterm hstop hstop'
      exact ⟨rfl, hrest⟩

section

variable {left right : Expr .sum} {op : ComparisonOp}

/-- The sides of a comparison mean something, and the left one is no assignment. -/
theorem Meaningful.of_comparison (h : (Expr.comparison left op right).Meaningful) :
    left.Meaningful ∧ right.Meaningful ∧ left.isAssign = false := by
  obtain ⟨σ, ty, code, h⟩ := h
  obtain ⟨tl, cl, tr, cr, hleft, hright, ⟨hne, -⟩, -⟩ := lower?_comparison.mp h
  exact ⟨⟨σ, tl, cl, hleft⟩, ⟨σ, tr, cr, hright⟩, isAssign_eq_false hleft hne⟩

/-- A sum stops at a comparison, whichever it is. -/
theorem stopsAt_comparison (e : Expr .sum) (op : ComparisonOp) (ks : List Token.Kind) :
    e.StopsAt (.symbol op.symbol :: ks) := by
  rintro k ⟨⟩
  exact e.goesOn_sum (by cases op <;> decide) (by cases op <;> rfl) (by cases op <;> rfl)

/-- A sum that stops is not followed by a comparison, unless it is an assignment, behind which
nothing is looked for. -/
theorem StopsAt.not_comparison {e : Expr .sum} {rest : List Token.Kind}
    (hassign : e.isAssign = false) (h : (Expr.single e).StopsAt rest) (op : ComparisonOp)
    (ks : List Token.Kind) : rest ≠ .symbol op.symbol :: ks := by
  rintro rfl
  have hgoes := h _ rfl
  cases op <;> simp [goesOn, hassign, Token.Kind.operator?, ComparisonOp.symbol,
    ComparisonOp.ofSymbol?] at hgoes

theorem StopsAt.of_single {e : Expr .sum} {rest : List Token.Kind}
    (h : (Expr.single e).StopsAt rest) : e.StopsAt rest :=
  fun k hk => (Bool.or_eq_false_iff.mp (h k hk)).1

end

/-- Whether there is a comparison is told by the token behind the first sum, where both sums
stop. -/
theorem determined_relation {n : Nat} (h : Determined n .sum) : Determined n .relation := by
  intro e e' hlength hmeans hmeans' rest rest' hkinds hstop hstop'
  cases e with
  | single e =>
    cases e' with
    | single e' =>
      obtain ⟨rfl, hrest⟩ := h hlength hmeans hmeans' hkinds hstop.of_single hstop'.of_single
      exact ⟨rfl, hrest⟩
    -- the sums are the same, so a comparison would follow the one that stops
    | comparison left' op' right' =>
      obtain ⟨hleft', -, hassign⟩ := hmeans'.of_comparison
      rw [kinds, kinds, List.append_assoc] at hkinds
      obtain ⟨rfl, hrest⟩ := h hlength hmeans hleft' hkinds hstop.of_single
        (left'.stopsAt_comparison op' _)
      exact absurd hrest (hstop.not_comparison hassign op' _)
  | comparison left op right =>
    obtain ⟨hleft, hright, hassign⟩ := hmeans.of_comparison
    rw [kinds, List.append_assoc] at hkinds
    rw [kinds, List.length_append, List.length_cons] at hlength
    cases e' with
    | single e' =>
      obtain ⟨rfl, hrest⟩ := h (by omega) hleft hmeans' hkinds (left.stopsAt_comparison op _)
        hstop'.of_single
      exact absurd hrest.symm (hstop'.not_comparison hassign op _)
    | comparison left' op' right' =>
      obtain ⟨hleft', hright', -⟩ := hmeans'.of_comparison
      rw [kinds, List.append_assoc] at hkinds
      obtain ⟨rfl, hrest⟩ := h (by omega) hleft hleft' hkinds (left.stopsAt_comparison op _)
        (left'.stopsAt_comparison op' _)
      obtain ⟨hop, hrights⟩ := List.cons.inj hrest
      obtain rfl : op = op' := by cases op <;> cases op' <;> first | rfl | cases hop
      obtain ⟨rfl, hend⟩ := h (by omega) hright hright' hrights hstop hstop'
      exact ⟨rfl, hend⟩

/-- **Expressions are told apart by their tokens.**  Their number is what the induction is on. -/
theorem determined (n : Nat) : Determined n .relation := by
  -- an assignment holds a shorter expression, and all other operands are parts on a lower rung
  induction n with
  | zero => exact determined_zero
  | succ n ih =>
    have hprimary := determined_primary ih
    have hterm := Production.multiplicativeLadder.determined hprimary hprimary
    have hsum := Production.additiveLadder.determined (determined_signed hterm) hterm
    exact determined_relation hsum

end Expr

/-! ### First tokens -/

/-- The forms of items, as far as their first token tells.  Conditionals with `else` and without
have one form, and so have fields and methods. -/
inductive Lead
  | block | conditional | loop | expression | empty | print | bug | ret
  | leave (exit : Exit)
  | declaration
  deriving DecidableEq, Repr

/-- The form of item that a token begins, if it begins any. -/
def Token.Kind.lead? : Token.Kind → Option Lead
  | .number _ => some .expression
  | .boolean _ => some .expression
  | .identifier _ => some .expression
  | .symbol .plus => some .expression
  | .symbol .minus => some .expression
  | .symbol .leftBrace => some .block
  | .symbol .semicolon => some .empty
  | .keyword .if => some .conditional
  | .keyword .while => some .loop
  | .keyword .printf => some .print
  | .keyword .bug => some .bug
  | .keyword .return => some .ret
  | .keyword .break => some (.leave .break)
  | .keyword .continue => some (.leave .continue)
  | .keyword word => (Ty.ofKeyword? word).map fun _ => .declaration
  | _ => none

/-- The form of a statement. -/
def Stmt.lead : Stmt → Lead
  | .block _ => .block
  | .branch _ _ => .conditional
  | .choice _ _ _ => .conditional
  | .loop _ _ => .loop
  | .expression _ => .expression
  | .empty => .empty
  | .print _ => .print
  | .bug _ => .bug
  | .ret _ => .ret
  | .leave exit => .leave exit

/-- The form of an item. -/
def Item.lead : Item → Lead
  | .field _ _ => .declaration
  | .method _ _ _ _ _ => .declaration
  | .statement s => s.lead

/-- Every name of a type begins a declaration. -/
theorem TypeName.lead? (t : TypeName) : Token.Kind.lead? (.keyword t.word) = some .declaration := by
  obtain ⟨word, ty, h⟩ := t
  cases word <;> first | rfl | cases h

/-- The first token of an item tells its form.  This is all that has to be looked at to choose
between the forms. -/
theorem Item.exists_lead (item : Item) :
    ∃ k ks, item.kinds = k :: ks ∧ k.lead? = some item.lead := by
  cases item with
  | field type name => exact ⟨_, _, rfl, type.lead?⟩
  | method type name parameters comma body => exact ⟨_, _, rfl, type.lead?⟩
  | statement s =>
    cases s with
    | expression e =>
      obtain ⟨k, ks, hks, hk⟩ := e.kinds_eq_cons
      refine ⟨k, ks, hks, ?_⟩
      unfold Token.Kind.beginsExpr at hk
      split at hk <;> first | rfl | cases hk
    | leave exit => exact ⟨_, _, rfl, by cases exit <;> rfl⟩
    | _ => exact ⟨_, _, rfl, rfl⟩

/-- Items with the same tokens have the same form. -/
theorem Item.lead_eq {item item' : Item} {rest rest' : List Token.Kind}
    (h : item.kinds ++ rest = item'.kinds ++ rest') : item.lead = item'.lead := by
  obtain ⟨k, ks, hks, hk⟩ := item.exists_lead
  obtain ⟨k', ks', hks', hk'⟩ := item'.exists_lead
  rw [hks, hks'] at h
  obtain rfl : k = k' := (List.cons.inj h).1
  exact Option.some.inj (hk.symm.trans hk')

theorem Stmt.lead_eq {s s' : Stmt} {rest rest' : List Token.Kind}
    (h : s.kinds ++ rest = s'.kinds ++ rest') : s.lead = s'.lead := by
  have hitem : (Item.statement s).kinds ++ rest = (Item.statement s').kinds ++ rest' := h
  exact Item.lead_eq hitem

/-! ### Statements -/

/-- The statement means something, and nothing in it is followed by something that would have been
read with it.  The latter is about `else`, which belongs to the nearest conditional. -/
def Stmt.Clear (s : Stmt) : Prop := (∃ σ f, s.lower? σ = some f) ∧ s.closed = true

/-- The same for an item. -/
def Item.Clear (item : Item) : Prop := (∃ σ f, item.lower? σ = some f) ∧ item.closed = true

/-- The same for a statement list. -/
def Items.Clear (items : Items) : Prop := (∃ σ f, items.lower? σ = some f) ∧ items.closed = true

/-- Reading the statement does not go on with the tokens behind it. -/
def Stmt.StopsAt (s : Stmt) (rest : List Token.Kind) : Prop :=
  ∀ k ∈ rest.head?, s.goesOn k = false

/-- Reading the item does not go on with the tokens behind it. -/
def Item.StopsAt (item : Item) (rest : List Token.Kind) : Prop :=
  ∀ k ∈ rest.head?, item.goesOn k = false

namespace Stmt.Clear

theorem of_branch {condition : Expr .relation} {body : Stmt}
    (h : (Stmt.branch condition body).Clear) : condition.Meaningful ∧ body.Clear := by
  obtain ⟨⟨σ, f, h⟩, hclosed⟩ := h
  obtain ⟨code, hc, g, hg, -⟩ := Stmt.lower?_branch.mp h
  obtain ⟨found, hc, -⟩ := Expr.lowerTo?_eq_some.mp hc
  exact ⟨⟨σ, found, code, hc⟩, ⟨_, g, hg⟩, hclosed⟩

/-- In a conditional with `else`, the first branch does not go on with the `else`. -/
theorem of_choice {condition : Expr .relation} {body other : Stmt}
    (h : (Stmt.choice condition body other).Clear) :
    condition.Meaningful ∧ body.Clear ∧ other.Clear ∧ body.goesOn (.keyword .else) = false := by
  obtain ⟨⟨σ, f, h⟩, hclosed⟩ := h
  obtain ⟨code, hc, g, hg, g', hg', -⟩ := Stmt.lower?_choice.mp h
  obtain ⟨found, hc, -⟩ := Expr.lowerTo?_eq_some.mp hc
  simp only [Stmt.closed, Bool.and_eq_true, Bool.not_eq_true'] at hclosed
  obtain ⟨⟨helse, hbody⟩, hother⟩ := hclosed
  exact ⟨⟨σ, found, code, hc⟩, ⟨⟨_, g, hg⟩, hbody⟩, ⟨⟨_, g', hg'⟩, hother⟩, helse⟩

theorem of_loop {condition : Expr .relation} {body : Stmt}
    (h : (Stmt.loop condition body).Clear) : condition.Meaningful ∧ body.Clear := by
  obtain ⟨⟨σ, f, h⟩, hclosed⟩ := h
  obtain ⟨code, hc, g, hg, -⟩ := Stmt.lower?_loop.mp h
  obtain ⟨found, hc, -⟩ := Expr.lowerTo?_eq_some.mp hc
  exact ⟨⟨σ, found, code, hc⟩, ⟨_, g, hg⟩, hclosed⟩

theorem of_expression {e : Expr .relation} (h : (Stmt.expression e).Clear) : e.Meaningful := by
  obtain ⟨⟨σ, f, h⟩, -⟩ := h
  obtain ⟨ty, code, he, -⟩ := Stmt.lower?_expression.mp h
  exact ⟨σ, ty, code, he⟩

theorem of_ret {e : Expr .relation} (h : (Stmt.ret (some e)).Clear) : e.Meaningful := by
  obtain ⟨⟨σ, f, h⟩, -⟩ := h
  obtain ⟨code, he, -⟩ := Stmt.lower?_ret_some.mp h
  obtain ⟨found, he, -⟩ := Expr.lowerTo?_eq_some.mp he
  exact ⟨σ, found, code, he⟩

end Stmt.Clear

/-- The body of a method is clear if the method is. -/
theorem Item.Clear.of_method {type : TypeName} {name : String} {parameters : List Declarator}
    {comma : Bool} {body : Items} (h : (Item.method type name parameters comma body).Clear) :
    body.Clear := by
  obtain ⟨⟨σ, f, h⟩, hclosed⟩ := h
  obtain ⟨g, hg, -⟩ := Item.lower?_method.mp h
  exact ⟨⟨_, g, hg⟩, hclosed⟩

/-- A statement list can end here: at a closing brace or at the end of input. -/
def EndsList (rest : List Token.Kind) : Prop :=
  rest.head? = some (.symbol .rightBrace) ∨ rest.head? = some .endOfInput

/-- No item begins where a list ends, so it is told by one token whether a list is over. -/
theorem EndsList.ne_item {rest : List Token.Kind} (h : EndsList rest) (item : Item)
    (ks : List Token.Kind) : rest ≠ item.kinds ++ ks := by
  rintro rfl
  obtain ⟨k, ks', hks, hk⟩ := item.exists_lead
  rw [EndsList, hks] at h
  obtain h | h := h
  · obtain rfl : k = _ := Option.some.inj h
    cases hk
  · obtain rfl : k = _ := Option.some.inj h
    cases hk

/-- Each item of a clear list stops at the next one, and the last one where the list ends. -/
theorem Items.Clear.of_cons {item : Item} {items : Items} {rest : List Token.Kind}
    (h : (Items.cons item items).Clear) (hrest : EndsList rest) :
    item.Clear ∧ items.Clear ∧ item.StopsAt (items.kinds ++ rest) := by
  obtain ⟨⟨σ, f, h⟩, hclosed⟩ := h
  obtain ⟨g, hg, g', hg', -⟩ := Items.lower?_cons.mp h
  simp only [Items.closed, Bool.and_eq_true, Bool.not_eq_true'] at hclosed
  obtain ⟨⟨hgoes, hitem⟩, hitems⟩ := hclosed
  refine ⟨⟨⟨σ, g, hg⟩, hitem⟩, ⟨⟨_, g', hg'⟩, hitems⟩, fun k hk => ?_⟩
  -- behind the last item comes what ends the list, with which no item goes on
  cases hkinds : items.kinds with
  | nil =>
    rw [hkinds, List.nil_append] at hk
    obtain hbrace | hend := hrest
    · obtain rfl := Option.some.inj (hbrace.symm.trans hk)
      exact item.goesOn_rightBrace
    · obtain rfl := Option.some.inj (hend.symm.trans hk)
      exact item.goesOn_endOfInput
  | cons k' ks =>
    rw [hkinds] at hk hgoes
    obtain rfl : k' = k := Option.some.inj hk
    exact hgoes

/-! ### Parameters -/

/-- A type is told by its word. -/
theorem TypeName.eq_of_word {t t' : TypeName} (h : t.word = t'.word) : t = t' := by
  obtain ⟨word, ty, hty⟩ := t
  obtain ⟨word', ty', hty'⟩ := t'
  obtain rfl : word = word' := h
  obtain rfl : ty = ty' := Option.some.inj (hty.symm.trans hty')
  rfl

/-- What follows the last parameter of a method.  There may be a comma more before the
parenthesis. -/
def Declarator.closing (comma : Bool) (rest : List Token.Kind) : List Token.Kind :=
  if comma then .symbol .comma :: .symbol .rightParen :: rest else .symbol .rightParen :: rest

theorem Declarator.closing_inj {comma comma' : Bool} {rest rest' : List Token.Kind}
    (h : closing comma rest = closing comma' rest') : comma = comma' ∧ rest = rest' := by
  cases comma <;> cases comma' <;> simp_all [closing]

/-- No parameter follows the last one, not even behind the comma that may be there. -/
theorem Declarator.closing_ne {comma : Bool} {rest ks : List Token.Kind} (d : Declarator) :
    closing comma rest ≠ d.kinds ++ ks ∧
      closing comma rest ≠ .symbol .comma :: (d.kinds ++ ks) := by
  cases comma <;> simp [closing, Declarator.kinds]

/-- A parameter is told apart from what follows it, since it is two tokens long. -/
theorem Declarator.kinds_inj {d d' : Declarator} {ks ks' : List Token.Kind}
    (h : d.kinds ++ ks = d'.kinds ++ ks') : d = d' ∧ ks = ks' := by
  obtain ⟨type, name⟩ := d
  obtain ⟨type', name'⟩ := d'
  simp only [Declarator.kinds, List.cons_append, List.nil_append, List.cons.injEq,
    Token.Kind.keyword.injEq, Token.Kind.identifier.injEq] at h
  obtain ⟨hword, rfl, hks⟩ := h
  exact ⟨by rw [TypeName.eq_of_word hword], hks⟩

section

variable {ds ds' : List Declarator} {comma comma' : Bool} {rest rest' : List Token.Kind}

/-- The parameters behind the first one are told apart by their tokens.  Each of them has a comma in
front. -/
theorem Declarator.eq_of_moreKinds
    (h : (ds.flatMap fun d => .symbol .comma :: d.kinds) ++ closing comma rest =
      (ds'.flatMap fun d => .symbol .comma :: d.kinds) ++ closing comma' rest') :
    ds = ds' ∧ comma = comma' ∧ rest = rest' := by
  induction ds generalizing ds' with
  | nil =>
    cases ds' with
    | nil => exact ⟨rfl, closing_inj h⟩
    | cons d' ds' =>
      rw [List.flatMap_cons, List.cons_append, List.cons_append, List.append_assoc] at h
      exact absurd h (closing_ne d').2
  | cons d ds ih =>
    rw [List.flatMap_cons, List.cons_append, List.cons_append, List.append_assoc] at h
    cases ds' with
    | nil => exact absurd h.symm (closing_ne d).2
    | cons d' ds' =>
      rw [List.flatMap_cons, List.cons_append, List.cons_append, List.append_assoc] at h
      obtain ⟨rfl, hmore⟩ := kinds_inj (List.cons.inj h).2
      obtain ⟨rfl, hends⟩ := ih hmore
      exact ⟨rfl, hends⟩

/-- Lists of parameters are told apart by their tokens, with the comma that may be at their end. -/
theorem Declarator.eq_of_kinds
    (h : listKinds ds ++ closing comma rest = listKinds ds' ++ closing comma' rest') :
    ds = ds' ∧ comma = comma' ∧ rest = rest' := by
  cases ds with
  | nil =>
    cases ds' with
    | nil => exact ⟨rfl, closing_inj h⟩
    | cons d' ds' =>
      rw [listKinds_eq, List.append_assoc] at h
      exact absurd h (closing_ne d').1
  | cons d ds =>
    rw [listKinds_eq, List.append_assoc] at h
    cases ds' with
    | nil => exact absurd h.symm (closing_ne d).1
    | cons d' ds' =>
      rw [listKinds_eq, List.append_assoc] at h
      obtain ⟨rfl, hmore⟩ := kinds_inj h
      obtain ⟨rfl, hends⟩ := eq_of_moreKinds hmore
      exact ⟨rfl, hends⟩

end

/-- The tokens of a header, cut at the parenthesis. -/
theorem Declarator.headerKinds_append (type : TypeName) (name : String)
    (parameters : List Declarator) (comma : Bool) (rest : List Token.Kind) :
    headerKinds type name parameters comma ++ rest =
      .keyword type.word :: .identifier name :: .symbol .leftParen ::
        (listKinds parameters ++ closing comma (.symbol .leftBrace :: rest)) := by
  cases comma <;> simp [headerKinds, closing]

/-! ### Statement lists -/

theorem Expr.eq_of_kinds {e e' : Expr .relation} {rest rest' : List Token.Kind} (h : e.Meaningful)
    (h' : e'.Meaningful) (hkinds : e.kinds ++ rest = e'.kinds ++ rest') (hstop : e.StopsAt rest)
    (hstop' : e'.StopsAt rest') : e = e' ∧ rest = rest' :=
  determined e.kinds.length (Nat.le_refl _) h h' hkinds hstop hstop'

/-- Conditions are told apart by their tokens.  They end at a parenthesis, with which no expression
goes on. -/
theorem Expr.eq_of_conditionKinds {e e' : Expr .relation} {rest rest' : List Token.Kind}
    (h : e.Meaningful) (h' : e'.Meaningful)
    (hkinds : e.conditionKinds ++ rest = e'.conditionKinds ++ rest') : e = e' ∧ rest = rest' := by
  have heq : e.kinds ++ .symbol .rightParen :: rest = e'.kinds ++ .symbol .rightParen :: rest' := by
    simpa [conditionKinds] using hkinds
  obtain ⟨rfl, hrest⟩ := eq_of_kinds h h' heq (by simp [StopsAt]) (by simp [StopsAt])
  exact ⟨rfl, (List.cons.inj hrest).2⟩

/-- No expression begins with a semicolon, so a return without a value is told from one with a
value. -/
theorem Expr.kinds_ne_semicolon (e : Expr .relation) (rest ks : List Token.Kind) :
    e.kinds ++ rest ≠ .symbol .semicolon :: ks := by
  obtain ⟨k, ks', hks, hk⟩ := e.kinds_eq_cons
  rw [hks]
  rintro ⟨⟩
  cases hk

/-- A conditional without `else` that stops is not followed by one. -/
theorem Stmt.StopsAt.of_branch {condition : Expr .relation} {body : Stmt} {rest : List Token.Kind}
    (h : (Stmt.branch condition body).StopsAt rest) :
    body.StopsAt rest ∧ ∀ ks, rest ≠ .keyword .else :: ks := by
  constructor
  · intro k hk
    exact (Bool.or_eq_false_iff.mp (h k hk)).2
  · rintro ks rfl
    simpa [Stmt.goesOn] using h _ rfl

/-- A semicolon ends every statement, so the body of a bug statement can be told. -/
theorem Stmt.stopsAt_semicolon (s : Stmt) (ks : List Token.Kind) :
    s.StopsAt (.symbol .semicolon :: ks) := by
  rintro k ⟨⟩
  exact s.goesOn_of_ends (by simp) Expr.goesOn_semicolon

/-- A statement that does not go on with `else` stops before it. -/
theorem Stmt.stopsAt_else {s : Stmt} (h : s.goesOn (.keyword .else) = false)
    (ks : List Token.Kind) : s.StopsAt (.keyword .else :: ks) := by
  rintro k ⟨⟩
  exact h

mutual

/-- Statements are told apart by their tokens.  Their first tokens tell their forms, and within a
form the parts are read one after the other, where each one stops at the token of the form behind
it. -/
theorem Stmt.eq_of_kinds : ∀ (s s' : Stmt) {rest rest' : List Token.Kind}, s.Clear → s'.Clear →
    s.kinds ++ rest = s'.kinds ++ rest' → s.StopsAt rest → s'.StopsAt rest' →
    s = s' ∧ rest = rest'
  | .block items, s', rest, rest', h, h', hkinds, hstop, hstop' => by
    -- here and below, the first token tells the form of the other statement
    have hlead := Stmt.lead_eq hkinds
    cases s' with
    | block items' =>
      have heq : items.kinds ++ .symbol .rightBrace :: rest =
          items'.kinds ++ .symbol .rightBrace :: rest' := by simpa [Stmt.kinds] using hkinds
      obtain ⟨rfl, hrest⟩ := items.eq_of_kinds items' h h' (.inl rfl) (.inl rfl) heq
      exact ⟨rfl, (List.cons.inj hrest).2⟩
    | _ => nomatch hlead
  | .branch condition body, s', rest, rest', h, h', hkinds, hstop, hstop' => by
    have hlead := Stmt.lead_eq hkinds
    obtain ⟨hcondition, hbody⟩ := h.of_branch
    obtain ⟨hends, helse⟩ := hstop.of_branch
    cases s' with
    | branch condition' body' =>
      obtain ⟨hcondition', hbody'⟩ := h'.of_branch
      simp only [Stmt.kinds, List.append_assoc, List.cons_append, List.cons.injEq] at hkinds
      obtain ⟨rfl, heq⟩ := Expr.eq_of_conditionKinds hcondition hcondition' hkinds.2
      obtain ⟨rfl, hrest⟩ := body.eq_of_kinds body' hbody hbody' heq hends hstop'.of_branch.1
      exact ⟨rfl, hrest⟩
    | choice condition' body' other' =>
      obtain ⟨hcondition', hbody', -, hgoes'⟩ := h'.of_choice
      simp only [Stmt.kinds, List.append_assoc, List.cons_append, List.cons.injEq] at hkinds
      obtain ⟨rfl, heq⟩ := Expr.eq_of_conditionKinds hcondition hcondition' hkinds.2
      -- the bodies are the same, so the `else` of the one follows the other
      obtain ⟨-, hrest⟩ := body.eq_of_kinds body' hbody hbody' heq hends
        (body'.stopsAt_else hgoes' _)
      exact absurd hrest (helse _)
    | _ => nomatch hlead
  | .choice condition body other, s', rest, rest', h, h', hkinds, hstop, hstop' => by
    have hlead := Stmt.lead_eq hkinds
    obtain ⟨hcondition, hbody, hother, hgoes⟩ := h.of_choice
    cases s' with
    | branch condition' body' =>
      obtain ⟨hcondition', hbody'⟩ := h'.of_branch
      obtain ⟨hends', helse'⟩ := hstop'.of_branch
      simp only [Stmt.kinds, List.append_assoc, List.cons_append, List.cons.injEq] at hkinds
      obtain ⟨rfl, heq⟩ := Expr.eq_of_conditionKinds hcondition hcondition' hkinds.2
      obtain ⟨-, hrest⟩ := body.eq_of_kinds body' hbody hbody' heq (body.stopsAt_else hgoes _)
        hends'
      exact absurd hrest.symm (helse' _)
    | choice condition' body' other' =>
      obtain ⟨hcondition', hbody', hother', hgoes'⟩ := h'.of_choice
      simp only [Stmt.kinds, List.append_assoc, List.cons_append, List.cons.injEq] at hkinds
      obtain ⟨rfl, heq⟩ := Expr.eq_of_conditionKinds hcondition hcondition' hkinds.2
      obtain ⟨rfl, hrest⟩ := body.eq_of_kinds body' hbody hbody' heq (body.stopsAt_else hgoes _)
        (body'.stopsAt_else hgoes' _)
      obtain ⟨rfl, hend⟩ := other.eq_of_kinds other' hother hother' (List.cons.inj hrest).2 hstop
        hstop'
      exact ⟨rfl, hend⟩
    | _ => nomatch hlead
  | .loop condition body, s', rest, rest', h, h', hkinds, hstop, hstop' => by
    have hlead := Stmt.lead_eq hkinds
    cases s' with
    | loop condition' body' =>
      obtain ⟨hcondition, hbody⟩ := h.of_loop
      obtain ⟨hcondition', hbody'⟩ := h'.of_loop
      simp only [Stmt.kinds, List.append_assoc, List.cons_append, List.cons.injEq] at hkinds
      obtain ⟨rfl, heq⟩ := Expr.eq_of_conditionKinds hcondition hcondition' hkinds.2
      obtain ⟨rfl, hrest⟩ := body.eq_of_kinds body' hbody hbody' heq hstop hstop'
      exact ⟨rfl, hrest⟩
    | _ => nomatch hlead
  | .expression e, s', rest, rest', h, h', hkinds, hstop, hstop' => by
    have hlead := Stmt.lead_eq hkinds
    cases s' with
    | expression e' =>
      obtain ⟨rfl, hrest⟩ := Expr.eq_of_kinds h.of_expression h'.of_expression hkinds hstop hstop'
      exact ⟨rfl, hrest⟩
    | _ => nomatch hlead
  | .empty, s', rest, rest', h, h', hkinds, hstop, hstop' => by
    have hlead := Stmt.lead_eq hkinds
    cases s' with
    | empty => exact ⟨rfl, (List.cons.inj hkinds).2⟩
    | _ => nomatch hlead
  | .print argument, s', rest, rest', h, h', hkinds, hstop, hstop' => by
    have hlead := Stmt.lead_eq hkinds
    cases s' with
    | print argument' =>
      cases argument with
      | none =>
        cases argument' with
        | none => exact ⟨rfl, List.append_cancel_left hkinds⟩
        | some x' => simp [Stmt.kinds] at hkinds
      | some x =>
        cases argument' with
        | none => simp [Stmt.kinds] at hkinds
        | some x' => simpa [Stmt.kinds] using hkinds
    | _ => nomatch hlead
  | .bug body, s', rest, rest', h, h', hkinds, hstop, hstop' => by
    have hlead := Stmt.lead_eq hkinds
    cases s' with
    | bug body' =>
      simp only [Stmt.kinds, List.append_assoc, List.cons_append, List.nil_append,
        List.cons.injEq] at hkinds
      obtain ⟨rfl, hrest⟩ := body.eq_of_kinds body' h h' hkinds.2 (body.stopsAt_semicolon _)
        (body'.stopsAt_semicolon _)
      exact ⟨rfl, (List.cons.inj hrest).2⟩
    | _ => nomatch hlead
  | .ret value, s', rest, rest', h, h', hkinds, hstop, hstop' => by
    have hlead := Stmt.lead_eq hkinds
    cases s' with
    | ret value' =>
      simp only [Stmt.kinds, List.append_assoc, List.cons_append, List.nil_append,
        List.cons.injEq] at hkinds
      cases value with
      | none =>
        cases value' with
        | none => exact ⟨rfl, (List.cons.inj hkinds.2).2⟩
        | some e' => exact absurd hkinds.2.symm (e'.kinds_ne_semicolon _ _)
      | some e =>
        cases value' with
        | none => exact absurd hkinds.2 (e.kinds_ne_semicolon _ _)
        | some e' =>
          obtain ⟨rfl, hrest⟩ := Expr.eq_of_kinds h.of_ret h'.of_ret hkinds.2
            (by simp [Expr.StopsAt]) (by simp [Expr.StopsAt])
          exact ⟨rfl, (List.cons.inj hrest).2⟩
    | _ => nomatch hlead
  | .leave exit, s', rest, rest', h, h', hkinds, hstop, hstop' => by
    have hlead := Stmt.lead_eq hkinds
    cases s' with
    | leave exit' =>
      obtain rfl : exit = exit' := Lead.leave.inj hlead
      exact ⟨rfl, List.append_cancel_left hkinds⟩
    | _ => nomatch hlead

/-- Items are told apart by their tokens. -/
theorem Item.eq_of_kinds : ∀ (item item' : Item) {rest rest' : List Token.Kind}, item.Clear →
    item'.Clear → item.kinds ++ rest = item'.kinds ++ rest' → item.StopsAt rest →
    item'.StopsAt rest' → item = item' ∧ rest = rest'
  | .field type name, item', rest, rest', h, h', hkinds, hstop, hstop' => by
    have hlead := Item.lead_eq hkinds
    cases item' with
    | field type' name' =>
      simp only [Item.kinds, List.cons_append, List.nil_append, List.cons.injEq,
        Token.Kind.keyword.injEq, Token.Kind.identifier.injEq] at hkinds
      obtain ⟨hword, rfl, -, hrest⟩ := hkinds
      exact ⟨by rw [TypeName.eq_of_word hword], hrest⟩
    | method type' name' parameters' comma' body' =>
      -- the parenthesis behind the name tells a method from a field
      rw [Item.kinds, Item.kinds, List.append_assoc, List.append_assoc,
        Declarator.headerKinds_append] at hkinds
      simp at hkinds
    | statement s' =>
      cases s' <;> nomatch hlead
  | .method type name parameters comma body, item', rest, rest', h, h', hkinds, hstop, hstop' => by
    have hlead := Item.lead_eq hkinds
    rw [Item.kinds, List.append_assoc, List.append_assoc, Declarator.headerKinds_append] at hkinds
    cases item' with
    | field type' name' => simp [Item.kinds] at hkinds
    | method type' name' parameters' comma' body' =>
      rw [Item.kinds, List.append_assoc, List.append_assoc, Declarator.headerKinds_append] at hkinds
      simp only [List.cons.injEq, Token.Kind.keyword.injEq, Token.Kind.identifier.injEq,
        true_and] at hkinds
      obtain ⟨hword, rfl, hkinds⟩ := hkinds
      obtain ⟨rfl, rfl, heq⟩ := Declarator.eq_of_kinds hkinds
      obtain ⟨rfl, hrest⟩ := body.eq_of_kinds body' h.of_method h'.of_method (.inl rfl) (.inl rfl)
        (List.cons.inj heq).2
      exact ⟨by rw [TypeName.eq_of_word hword], (List.cons.inj hrest).2⟩
    | statement s' => cases s' <;> nomatch hlead
  | .statement s, item', rest, rest', h, h', hkinds, hstop, hstop' => by
    have hlead := Item.lead_eq hkinds
    cases item' with
    | statement s' =>
      obtain ⟨rfl, hrest⟩ := s.eq_of_kinds s' h h' hkinds hstop hstop'
      exact ⟨rfl, hrest⟩
    | _ => cases s <;> nomatch hlead

/-- **Statement lists are told apart by their tokens.** -/
theorem Items.eq_of_kinds : ∀ (items items' : Items) {rest rest' : List Token.Kind}, items.Clear →
    items'.Clear → EndsList rest → EndsList rest' → items.kinds ++ rest = items'.kinds ++ rest' →
    items = items' ∧ rest = rest'
  | .nil, items', rest, rest', h, h', hends, hends', hkinds => by
    cases items' with
    | nil => exact ⟨rfl, hkinds⟩
    | cons item' items' => exact absurd (List.append_assoc .. ▸ hkinds) (hends.ne_item item' _)
  | .cons item items, items', rest, rest', h, h', hends, hends', hkinds => by
    obtain ⟨hitem, hitems, hstop⟩ := h.of_cons hends
    rw [Items.kinds, List.append_assoc] at hkinds
    cases items' with
    | nil => exact absurd hkinds.symm (hends'.ne_item item _)
    | cons item' items' =>
      obtain ⟨hitem', hitems', hstop'⟩ := h'.of_cons hends'
      rw [Items.kinds, List.append_assoc] at hkinds
      obtain ⟨rfl, heq⟩ := item.eq_of_kinds item' hitem hitem' hkinds hstop hstop'
      obtain ⟨rfl, hrest⟩ := items.eq_of_kinds items' hitems hitems' hends hends' heq
      exact ⟨rfl, hrest⟩

end

end OnePass
