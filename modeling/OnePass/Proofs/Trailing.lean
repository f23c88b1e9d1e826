import OnePass.Proofs.Containment

/-!
# Assignments as operands

With declared types no operator takes an assignment, and an expression that ends in one is a
mistake.  But the assignment reads its own semicolon.  If there is nothing wrong with it, nor with
what stands in front of it, the mistake is found only behind that semicolon, and then everything
up to the next one is skipped.  Such a mistake does not stay in its statement: it is as if what
follows the statement had not been written.

## Main definitions

* `Expr.trails` — the last operand of an expression is an assignment.

## Main results

* `Production.traps_of_trails` — such an expression is one mistake.
* `parse_of_trails` — **the mistake costs its statement and what is skipped behind it, and nothing
  else**.
* `declaration_swallowed` — this can be a declaration that is needed.
-/

namespace OnePass

/-- Whether the expression has several operands, and the last one is its only assignment. -/
def Expr.trails {r : Rung} (e : Expr r) : Bool := e.tidy && !e.pure && !e.isAssign

/-- Such an expression is tidy, and it is not the assignment alone. -/
theorem Expr.of_trails {r : Rung} {e : Expr r} (h : e.trails = true) :
    e.tidy = true ∧ e.pure = false ∧ e.isAssign = false := by
  simpa [trails, and_assoc] using h

/-- With declared types it means nothing, because an operator does not take an assignment. -/
theorem Expr.lower?_of_trails {σ : Site} (htyping : σ.options.typing = .declared) (hσ : σ.Valued)
    {r : Rung} {e : Expr r} (h : e.trails = true) : e.lower? σ = none := by
  obtain ⟨htidy, hpure, hassign⟩ := of_trails h
  refine Option.eq_none_iff_forall_ne_some.mpr ?_
  rintro ⟨ty, code⟩ hlower
  simpa [hpure, hassign] using pure_or_isAssign htyping hσ htidy hlower

/-- Where a mistake is found does not depend on the offset, but only on what names stand for. -/
theorem Site.Alike.spills {σ τ : Site} (h : σ.Alike τ) : ∀ {r : Rung} (e : Expr r),
    e.spills σ = e.spills τ
  | _, .number _ => rfl
  | _, .boolean _ => rfl
  | _, .name _ => rfl
  | _, .assign x value => by rw [Expr.spills, Expr.spills, h.lower?]
  | _, .factor e => h.spills e
  | _, .product left _ right => by rw [Expr.spills, Expr.spills, h.lower?, h.spills right]
  | _, .unsigned e => h.spills e
  | _, .signed _ e => h.spills e
  | _, .first e => h.spills e
  | _, .sum left _ right => by rw [Expr.spills, Expr.spills, h.lower?, h.spills right]
  | _, .single e => h.spills e
  | _, .comparison left _ right => by rw [Expr.spills, Expr.spills, h.lower?, h.spills right]

/-- An expression that ends in an assignment is one mistake, and what is skipped behind it goes with
it. -/
theorem Production.traps_of_trails {τ : Site} (htyping : τ.options.typing = .declared)
    {e : Expr .relation} (h : e.trails = true) {gone ahead : List Token.Kind}
    (hgone : gone = e.spill τ (gone ++ ahead)) : Traps e.kinds gone τ ahead := by
  intro budget s σ o d hτ hat hbound hkinds
  obtain ⟨htidy, hpure, -⟩ := Expr.of_trails h
  obtain ⟨line, hline, hwhole⟩ := Expr.exists_line htidy hpure
  have htyping : σ.options.typing = .declared := hτ.options ▸ htyping
  have hkinds : s.kinds = e.kinds ++ [] ++ (gone ++ ahead) := by
    rw [hkinds, List.append_nil, List.append_assoc]
  have hspoils := expression_spoils hat rfl hbound hline ((List.append_nil _).trans hwhole) hkinds
    (by simp) ⟨htidy, .inl htyping⟩ (Expr.lower?_of_trails htyping hat.valued h)
  -- the pass has come to a site like `τ`, perhaps at another offset
  have hspill : e.spill σ (gone ++ ahead) = gone := by
    rw [Expr.spill, ← hτ.spills e]
    exact hgone.symm
  rwa [List.append_nil, hspill] at hspoils

mutual

theorem Stmt.Spot.options_eq {stmt : List Token.Kind} : ∀ {t : Stmt} {σ τ : Site}
    {before after : List Token.Kind}, t.Spot stmt σ τ before after → τ.options = σ.options
  | _, _, _, _, _, .block h => h.options_eq
  | _, _, _, _, _, .branch h => h.options_eq
  | _, _, _, _, _, .body _ _ h => h.options_eq
  | _, _, _, _, _, .other _ _ _ h => h.options_eq
  | _, _, _, _, _, .loop _ h => h.options_eq
  | _, _, _, _, _, .bug h => h.options_eq

theorem Item.Spot.options_eq {stmt : List Token.Kind} : ∀ {i : Item} {σ τ : Site}
    {before after : List Token.Kind}, i.Spot stmt σ τ before after → τ.options = σ.options
  | _, _, _, _, _, .method h => h.options_eq
  | _, _, _, _, _, .statement h => h.options_eq

/-- The options are the same everywhere in a tree, so its typing is. -/
theorem Items.Spot.options_eq {stmt : List Token.Kind} : ∀ {items : Items} {σ τ : Site}
    {before after : List Token.Kind}, items.Spot stmt σ τ before after → τ.options = σ.options
  | _, _, _, _, _, .here _ => rfl
  | _, _, _, _, _, .head _ _ h => h.options_eq
  | _, _, _, _, _, .tail _ _ _ h => h.options_eq

end

/-- **The mistake costs its statement and what is skipped behind it, and nothing else.**  Let there
be a place in a tree that stands for a program, and let a source have there an expression that ends
in an assignment and, if the mistake is found behind it, the tokens up to the next semicolon.  The
pass over this source reports one error, at a token of the expression.  It reports as many warnings
as the tree alone would bring, and the methods of the program it leaves have the names, types,
parameters and locals of the tree alone. -/
theorem parse_of_trails {options : Options} (htyping : options.typing = .declared) {items : Items}
    (hclosed : items.closed = true) {program : Program}
    (hprogram : items.program? options = some program) {e : Expr .relation}
    (he : e.trails = true) {τ : Site} {before after : List Token.Kind}
    (hspot : items.Spot e.kinds (.entry options) τ before after) {source source' : String}
    {tokens front inserted gone back : List Token} (hwrites : Writes source items tokens)
    (hscans : Scans source' (front ++ inserted ++ gone ++ back))
    (hfront : front.map Token.kind = before) (hinserted : inserted.map Token.kind = e.kinds)
    (hgone : gone.map Token.kind = e.spill τ ((gone ++ back).map Token.kind))
    (hback : back.map Token.kind = after ++ [.endOfInput]) :
    ∃ c, compile options source = .ok c ∧ (parse options source').Spoiled c inserted := by
  obtain ⟨c, hcompile, rfl, hwarnings⟩ := hwrites.exists_compile hclosed hprogram
  refine ⟨c, hcompile, ?_⟩
  have hτ : τ.options.typing = .declared := hspot.options_eq.symm ▸ htyping
  -- the tokens of the tree, with the statement and what is skipped behind it in between
  have hkinds : (front ++ inserted ++ gone ++ back).map Token.kind =
      before ++ (e.kinds ++ gone.map Token.kind) ++ after ++ [.endOfInput] := by
    simp [hfront, hinserted, hback]
  rw [List.map_append, hback] at hgone
  have hstmt : ∃ k ks, e.kinds = k :: ks ∧ k ≠ .endOfInput := by
    obtain ⟨k, ks, hks, hk⟩ := e.kinds_eq_cons
    exact ⟨k, ks, hks, by rintro rfl; cases hk⟩
  have hspoiled := Parsed.Spoiled.of_spot hstmt hspot hscans hkinds
    (Production.traps_of_trails hτ he hgone) hprogram hwarnings
  rw [List.append_assoc, tokensAt_eq hfront hinserted] at hspoiled
  exact hspoiled

/-- A sum whose last operand is an assignment, with nothing wrong in it otherwise. -/
def trailingSum : Expr .relation :=
  .single (.sum (.plain (.number 1)) .add (.factor (.assign "x" (.single (.plain (.number 2))))))

/-- A statement that assigns a number. -/
def storedNumber (x : String) (value : Nat) : Item :=
  .statement (.expression (.single (.plain (.assign x (.single (.plain (.number value)))))))

/-- A method that assigns to a variable outside of it, in a loop and marked, so that there are code,
a branch and a warning. -/
def storingItems : Items :=
  .cons (.field .int "x")
  (.cons (.method .void "f" [] false
    (.cons (.statement (.loop (.comparison (.plain (.name "x")) .less (.plain (.number 3)))
      (.block (.cons (storedNumber "x" 4) .nil))))
    (.cons (.statement (.bug (.block (.cons (storedNumber "x" 2) .nil)))) .nil))) .nil)

/-- The text of that tree. -/
def storingSource : String := "int x; void f() { while (x < 3) { x = 4; } bug { x = 2; }; }"

/-- The text with the sum in the loop, and a declaration behind it. -/
def trailingSource : String :=
  "int x; void f() { while (x < 3) { 1 + x = 2; int y; x = 4; } bug { x = 2; }; }"

/-- The tokens of a text. -/
def tokensOf (source : String) : List Token := (lexemes source).map Lexeme.token

/-- The method has no local `y`: the declaration behind the sum goes with the mistake. -/
theorem parse_of_trails_nested : ∃ τ before after tokens front inserted gone back,
    storingItems.closed = true ∧ (∃ program, storingItems.program? {} = some program) ∧
    trailingSum.trails = true ∧ storingItems.Spot trailingSum.kinds (.entry {}) τ before after ∧
    Writes storingSource storingItems tokens ∧
    Scans trailingSource (front ++ inserted ++ gone ++ back) ∧ front.map Token.kind = before ∧
    inserted.map Token.kind = trailingSum.kinds ∧
    gone.map Token.kind = trailingSum.spill τ ((gone ++ back).map Token.kind) ∧ gone ≠ [] ∧
    back.map Token.kind = after ++ [.endOfInput] ∧
    ∃ c, compile {} storingSource = .ok c ∧ (parse {} trailingSource).Spoiled c inserted := by
  -- the place is at the beginning of the body of the loop
  obtain ⟨program, hprogram⟩ : ∃ program, storingItems.program? {} = some program :=
    Option.isSome_iff_exists.mp (by decide +kernel)
  have hspot : storingItems.Spot trailingSum.kinds (.entry {}) _ _ _ :=
    .tail (fun _ _ => rfl) rfl (Item.lower?_field.mpr ⟨⟨rfl, by simp [TypeName.int]⟩, rfl⟩)
      (.head (fun _ _ => rfl) rfl (.method (.head (fun _ _ => rfl) rfl (.statement
        (.loop ⟨.offset 0, .offset 0⟩ (.block (.here rfl)))))))
  have hwrites : Writes storingSource storingItems (tokensOf storingSource) :=
    ⟨scans_iff.mpr (by decide +kernel), by decide +kernel⟩
  have hscans : Scans trailingSource ((tokensOf trailingSource).take 15 ++
      ((tokensOf trailingSource).drop 15).take 6 ++ ((tokensOf trailingSource).drop 21).take 3 ++
      (tokensOf trailingSource).drop 24) :=
    scans_iff.mpr (by decide +kernel)
  exact ⟨_, _, _, _, _, _, _, _, rfl, ⟨program, hprogram⟩, rfl, hspot, hwrites, hscans,
    by decide +kernel, by decide +kernel, by decide +kernel, by decide +kernel, by decide +kernel,
    parse_of_trails rfl rfl hprogram rfl hspot hwrites hscans (by decide +kernel)
      (by decide +kernel) (by decide +kernel) (by decide +kernel)⟩

/-- Two declarations and an assignment to the variable of the second one. -/
def declaringItems : Items :=
  .cons (.field .int "x") (.cons (.field .int "y") (.cons (storedNumber "y" 3) .nil))

/-- The text of that tree. -/
def declaringSource : String := "int x; int y; y = 3;"

/-- The text with the sum behind the first declaration. -/
def swallowingSource : String := "int x; 1 + x = 2; int y; y = 3;"

/-- There is a second error: the other declaration is skipped, and its variable is not known. -/
theorem declaration_swallowed : ∃ τ before after tokens front inserted back c,
    declaringItems.closed = true ∧ trailingSum.trails = true ∧
    declaringItems.Spot trailingSum.kinds (.entry {}) τ before after ∧
    Writes declaringSource declaringItems tokens ∧
    Scans swallowingSource (front ++ inserted ++ back) ∧
    front.map Token.kind = before ∧ inserted.map Token.kind = trailingSum.kinds ∧
    back.map Token.kind = after ++ [.endOfInput] ∧
    compile {} declaringSource = .ok c ∧
    ¬ (parse {} swallowingSource).Spoiled c inserted := by
  have hspot : declaringItems.Spot trailingSum.kinds (.entry {}) _ _ _ :=
    .tail (fun _ _ => rfl) rfl (Item.lower?_field.mpr ⟨⟨rfl, by simp [TypeName.int]⟩, rfl⟩)
      (.here rfl)
  have hwrites : Writes declaringSource declaringItems (tokensOf declaringSource) :=
    ⟨scans_iff.mpr (by decide +kernel), by decide +kernel⟩
  obtain ⟨program, hprogram⟩ : ∃ program, declaringItems.program? {} = some program :=
    Option.isSome_iff_exists.mp (by decide +kernel)
  obtain ⟨c, hcompile, -, -⟩ := hwrites.exists_compile rfl hprogram
  have hscans : Scans swallowingSource ((tokensOf swallowingSource).take 3 ++
      ((tokensOf swallowingSource).drop 3).take 6 ++ (tokensOf swallowingSource).drop 9) :=
    scans_iff.mpr (by decide +kernel)
  have herrors : (parse {} swallowingSource).state.diagnostics.errors.size = 2 := by
    decide +kernel
  refine ⟨_, _, _, _, _, _, _, c, rfl, rfl, hspot, hwrites, hscans, by decide +kernel,
    by decide +kernel, by decide +kernel, hcompile, fun hspoiled => ?_⟩
  obtain ⟨t, -, e, herror⟩ := hspoiled.error
  rw [herror] at herrors
  cases herrors

end OnePass
