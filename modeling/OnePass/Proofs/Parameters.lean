import OnePass.Proofs.Translation

/-!
# Lists of parameters

Between the parentheses of a method stand its parameters, with a comma between each two.  That is
how the grammar has it.  The loop that reads them stops for two reasons: because no comma follows,
and because no type does.  The second one lets a comma pass behind the last parameter, and no other
comma.

In a source that compiles, a type, a name and an opening parenthesis are the beginning of a method
wherever they stand, since types occur in declarations only.

## Main definitions

* `Declarator.Separated` — nothing, or parameters with a comma between each two.
* `Declared` — every type in a list of tokens belongs to a declaration.

## Main results

* `Items.declared` — the tokens of a tree that means something are of this form.
* `separated_iff_of_compile` — **parameters are separated as in the grammar, unless there is a comma
  in front of the closing parenthesis**.
* `comma_passes` — which can be.
-/

namespace OnePass

namespace Declarator

/-- Nothing, or parameters with a comma between each two, which is one comma less than there are
parameters. -/
def Separated (inside : List Token.Kind) : Prop :=
  ∃ ds : List Declarator, inside = listKinds ds ∧
    (ds ≠ [] → inside.count (.symbol .comma) + 1 = ds.length)

/-- There is one comma less than there are parameters, as one stands between each two. -/
theorem count_comma_listKinds (d : Declarator) (ds : List Declarator) :
    (listKinds (d :: ds)).count (.symbol .comma) + 1 = (d :: ds).length := by
  have hkinds (d : Declarator) : d.kinds.count (.symbol .comma) = 0 := rfl
  induction ds generalizing d with
  | nil => rw [listKinds, hkinds]; rfl
  | cons d' ds ih =>
    rw [listKinds_cons d (List.cons_ne_nil d' ds), List.count_append, List.count_cons_self, hkinds,
      ih d', Nat.zero_add]
    rfl

/-- Parameters end in a name, so never in a comma. -/
theorem getLast?_listKinds (ds : List Declarator) :
    (listKinds ds).getLast? ≠ some (.symbol .comma) := by
  cases ds with
  | nil => simp [listKinds]
  | cons d ds =>
    suffices h : ∃ name, (listKinds (d :: ds)).getLast? = some (.identifier name) by
      obtain ⟨name, hlast⟩ := h
      simp [hlast]
    induction ds generalizing d with
    | nil => exact ⟨d.name, rfl⟩
    | cons d' ds ih =>
      obtain ⟨name, hlast⟩ := ih d'
      refine ⟨name, ?_⟩
      rw [listKinds_cons d (List.cons_ne_nil d' ds), List.getLast?_append,
        List.getLast?_cons, hlast]
      rfl

theorem rightParen_not_mem_listKinds (ds : List Declarator) :
    .symbol .rightParen ∉ listKinds ds := by
  cases ds with
  | nil => exact List.not_mem_nil
  | cons d ds =>
    rw [listKinds_eq]
    simp [kinds]

theorem separated_listKinds (ds : List Declarator) : Separated (listKinds ds) := by
  refine ⟨ds, rfl, fun hne => ?_⟩
  obtain ⟨d, ds, rfl⟩ := List.exists_cons_of_ne_nil hne
  exact count_comma_listKinds d ds

/-- The tokens between the parentheses of a method, with a comma at the end or without. -/
def insideKinds (ds : List Declarator) (comma : Bool) : List Token.Kind :=
  listKinds ds ++ if comma then [.symbol .comma] else []

/-- Only a comma at the end can keep parameters from being separated.  This decides by the last
token. -/
theorem separated_insideKinds_iff (ds : List Declarator) (comma : Bool) :
    Separated (insideKinds ds comma) ↔
      (insideKinds ds comma).getLast? ≠ some (.symbol .comma) := by
  constructor
  · rintro ⟨ds', heq, -⟩
    rw [heq]
    exact getLast?_listKinds ds'
  · intro hlast
    cases comma with
    | true => simp [insideKinds] at hlast
    | false =>
      rw [insideKinds, if_neg Bool.false_ne_true, List.append_nil]
      exact separated_listKinds ds

end Declarator

open Declarator

/-! ### Types stand in declarations -/

/-- Behind a type come a name and a symbol.  If this is an opening parenthesis, parameters follow,
and then the body of a method. -/
def Declares (rest : List Token.Kind) : Prop :=
  ∃ name mark behind, rest = .identifier name :: .symbol mark :: behind ∧
    (mark = .leftParen → ∃ ds comma after, (comma = true → ds ≠ []) ∧
      behind = insideKinds ds comma ++ .symbol .rightParen :: .symbol .leftBrace :: after)

/-- Every type among the tokens belongs to a declaration.  This is told from the tokens behind it
alone. -/
def Declared : List Token.Kind → Prop
  | [] => True
  | k :: ks => (k.type? ≠ none → Declares ks) ∧ Declared ks

theorem Declares.append {ks : List Token.Kind} (h : Declares ks) (ls : List Token.Kind) :
    Declares (ks ++ ls) := by
  obtain ⟨name, mark, behind, rfl, hbehind⟩ := h
  refine ⟨name, mark, behind ++ ls, rfl, fun hmark => ?_⟩
  obtain ⟨ds, comma, after, hcomma, rfl⟩ := hbehind hmark
  exact ⟨ds, comma, after ++ ls, hcomma, by simp⟩

namespace Declared

variable {ks ls : List Token.Kind} {k : Token.Kind}

theorem append (hks : Declared ks) (hls : Declared ls) : Declared (ks ++ ls) := by
  induction ks with
  | nil => exact hls
  | cons k ks ih => exact ⟨fun hk => (hks.1 hk).append ls, ih hks.2⟩

/-- What is no type can stand anywhere, since nothing is asked of what follows it. -/
theorem cons (hk : k.type? = none) (hks : Declared ks) : Declared (k :: ks) :=
  ⟨fun hne => absurd hk hne, hks⟩

theorem concat (hks : Declared ks) (hk : k.type? = none) : Declared (ks ++ [k]) :=
  hks.append (cons hk trivial)

/-- Wherever a type stands, a declaration goes on behind it, whatever stands in front. -/
theorem declares {front rest : List Token.Kind} {type : TypeName}
    (h : Declared (front ++ .keyword type.word :: rest)) : Declares rest := by
  induction front with
  | nil =>
    refine h.1 ?_
    rw [Token.Kind.type?, type.named]
    exact Option.some_ne_none _
  | cons k front ih => exact ih h.2

end Declared

theorem Expr.declared : ∀ {r : Rung} (e : Expr r), Declared e.kinds
  | _, .number _ => .cons rfl trivial
  | _, .boolean _ => .cons rfl trivial
  | _, .name _ => .cons rfl trivial
  | _, .assign _ value => .cons rfl (.cons rfl (value.declared.concat rfl))
  | _, .factor e => e.declared
  | _, .product left _ right => left.declared.append (.cons rfl right.declared)
  | _, .unsigned e => e.declared
  | _, .signed _ e => .cons rfl e.declared
  | _, .first e => e.declared
  | _, .sum left _ right => left.declared.append (.cons rfl right.declared)
  | _, .single e => e.declared
  | _, .comparison left _ right => left.declared.append (.cons rfl right.declared)

theorem Expr.declared_condition (e : Expr .relation) : Declared e.conditionKinds :=
  .cons rfl (e.declared.concat rfl)

/-- Each parameter is a declaration that ends in front of a comma or a closing parenthesis, so it is
not taken for a method. -/
theorem Declarator.declared_listKinds {mark : Symbol} {rest : List Token.Kind}
    (hmark : mark ≠ .leftParen) (hrest : Declared rest) (ds : List Declarator) :
    Declared (listKinds ds ++ .symbol mark :: rest) := by
  -- a type and a name with a symbol behind them that opens no parameters
  have hends {mark : Symbol} {rest : List Token.Kind} (hmark : mark ≠ .leftParen)
      (hrest : Declared rest) (d : Declarator) : Declared (d.kinds ++ .symbol mark :: rest) :=
    ⟨fun _ => ⟨d.name, mark, rest, rfl, fun h => absurd h hmark⟩, .cons rfl (.cons rfl hrest)⟩
  induction ds with
  | nil => exact .cons rfl hrest
  | cons d ds ih =>
    -- behind the last parameter comes the symbol, and behind the others a comma
    cases ds with
    | nil => exact hends hmark hrest d
    | cons d' ds =>
      rw [listKinds_cons d (List.cons_ne_nil d' ds), List.append_assoc]
      exact hends (by decide) ih d

theorem Declarator.declared_insideKinds (ds : List Declarator) (comma : Bool)
    {rest : List Token.Kind} (hrest : Declared rest) :
    Declared (insideKinds ds comma ++ .symbol .rightParen :: rest) := by
  cases comma with
  | false =>
    rw [insideKinds, if_neg Bool.false_ne_true, List.append_nil]
    exact declared_listKinds (by decide) hrest ds
  | true =>
    rw [insideKinds, if_pos rfl, List.append_assoc]
    exact declared_listKinds (by decide) (.cons rfl hrest) ds

mutual

/-- In a statement that means something, types stand in declarations.  Expressions and conditions
have none in them. -/
theorem Stmt.declared : ∀ (s : Stmt) {σ : Site} {f : Fragment}, s.lower? σ = some f →
    Declared s.kinds
  | .block items, _, _, h => .cons rfl ((items.declared h).concat rfl)
  | .branch condition body, _, _, h => by
    obtain ⟨code, -, g, hg, -⟩ := Stmt.lower?_branch.mp h
    exact .cons rfl (condition.declared_condition.append (body.declared hg))
  | .choice condition body other, _, _, h => by
    obtain ⟨code, -, g, hg, g', hg', -⟩ := Stmt.lower?_choice.mp h
    exact .cons rfl ((condition.declared_condition.append (body.declared hg)).append
      (.cons rfl (other.declared hg')))
  | .loop condition body, _, _, h => by
    obtain ⟨code, -, g, hg, -⟩ := Stmt.lower?_loop.mp h
    exact .cons rfl (condition.declared_condition.append (body.declared hg))
  | .expression e, _, _, _ => e.declared
  | .empty, _, _, _ => .cons rfl trivial
  | .print none, _, _, _ => .cons rfl (.cons rfl (.cons rfl (.cons rfl trivial)))
  | .print (some _), _, _, _ => .cons rfl (.cons rfl (.cons rfl (.cons rfl (.cons rfl trivial))))
  | .bug body, _, _, h => .cons rfl ((body.declared h).concat rfl)
  | .ret none, _, _, _ => .cons rfl (.cons rfl trivial)
  | .ret (some e), _, _, _ => .cons rfl (e.declared.concat rfl)
  | .leave exit, _, _, _ => by cases exit <;> exact .cons rfl (.cons rfl trivial)

theorem Item.declared : ∀ (item : Item) {σ : Site} {f : Fragment}, item.lower? σ = some f →
    Declared item.kinds
  | .field type name, _, _, _ =>
    ⟨fun _ => ⟨name, .semicolon, [], rfl, by simp⟩, .cons rfl (.cons rfl trivial)⟩
  | .method type name parameters comma body, _, _, h => by
    obtain ⟨g, hg, ⟨-, hformed⟩, -⟩ := Item.lower?_method.mp h
    -- no comma is let pass without a parameter in front of it
    have hcomma : comma = true → parameters ≠ [] := by
      rintro rfl rfl
      simp [wellFormed] at hformed
    have hkinds : (Item.method type name parameters comma body).kinds =
        .keyword type.word :: .identifier name :: .symbol .leftParen ::
          (insideKinds parameters comma ++ .symbol .rightParen :: .symbol .leftBrace ::
            (body.kinds ++ [.symbol .rightBrace])) := by
      simp [Item.kinds, headerKinds, insideKinds]
    rw [hkinds]
    refine ⟨fun _ => ⟨name, .leftParen, _, rfl, fun _ => ⟨parameters, comma, _, hcomma, rfl⟩⟩, ?_⟩
    exact .cons rfl (.cons rfl (declared_insideKinds parameters comma
      (.cons rfl ((body.declared hg).concat rfl))))
  | .statement s, _, _, h => s.declared h

theorem Items.declared : ∀ (items : Items) {σ : Site} {f : Fragment}, items.lower? σ = some f →
    Declared items.kinds
  | .nil, _, _, _ => trivial
  | .cons item rest, _, _, h => by
    obtain ⟨g, hg, g', hg', -⟩ := Items.lower?_cons.mp h
    exact (item.declared hg).append (rest.declared hg')

end

/-! ### Headers -/

/-- **How parameters are separated.**  Wherever a type, a name and an opening parenthesis stand in a
source that compiles, the tokens up to the next closing parenthesis are parameters with a comma
between each two, exactly if the last of these tokens is no comma.  If it is one, it is the only
token too much: there are parameters in front of it, and as many commas as parameters. -/
theorem separated_iff_of_compile {options : Options} {source : String} {c : Compilation}
    (h : compile options source = .ok c) {front rest : List Token.Kind} {type : TypeName}
    {name : String} (hheader : sourceKinds source =
      front ++ .keyword type.word :: .identifier name :: .symbol .leftParen :: rest) :
    ∃ inside behind, rest = inside ++ .symbol .rightParen :: .symbol .leftBrace :: behind ∧
      .symbol .rightParen ∉ inside ∧
      (Separated inside ↔ inside.getLast? ≠ some (.symbol .comma)) ∧
      (inside.getLast? = some (.symbol .comma) → ∃ ds, ds ≠ [] ∧
        inside = listKinds ds ++ [.symbol .comma] ∧
        inside.count (.symbol .comma) = ds.length) := by
  obtain ⟨items, tokens, ⟨hscans, hkinds⟩, -, hprogram, -⟩ := compile_eq_ok_iff.mp h
  obtain ⟨f, hlower, -⟩ := Items.program?_eq_some.mp hprogram
  have hdeclared : Declared (sourceKinds source) := by
    rw [hscans.sourceKinds_eq, hkinds]
    exact (items.declared hlower).concat rfl
  rw [hheader] at hdeclared
  -- the parenthesis behind the name tells that the declaration is a method
  obtain ⟨name', mark, behind, heq, hmethod⟩ := hdeclared.declares
  obtain ⟨-, heq⟩ := List.cons.inj heq
  obtain ⟨hmark, rfl⟩ := List.cons.inj heq
  obtain ⟨ds, comma, after, hcomma, hrest⟩ := hmethod (Token.Kind.symbol.inj hmark).symm
  refine ⟨insideKinds ds comma, after, hrest, ?_, separated_insideKinds_iff ds comma,
    fun hlast => ?_⟩
  · have hnot := rightParen_not_mem_listKinds ds
    cases comma <;> simpa [insideKinds] using hnot
  · cases comma with
    | false =>
      rw [insideKinds, if_neg Bool.false_ne_true, List.append_nil] at hlast
      exact absurd hlast (getLast?_listKinds ds)
    | true =>
      obtain ⟨d, ds, rfl⟩ := List.exists_cons_of_ne_nil (hcomma rfl)
      refine ⟨d :: ds, List.cons_ne_nil d ds, rfl, ?_⟩
      rw [insideKinds, if_pos rfl, List.count_append, ← count_comma_listKinds]
      rfl

/-- A method inside another one, whose parameters end in a comma.  Both headers are found. -/
def headersSource : String := "int f(int a, bool b) { void g(char c,) {} return a; }"

theorem separated_iff_of_compile_nested :
    (compile {} headersSource).toOption.isSome = true ∧
    sourceKinds headersSource = (sourceKinds headersSource).take 10 ++ .keyword .void ::
      .identifier "g" :: .symbol .leftParen :: (sourceKinds headersSource).drop 13 ∧
    ∃ inside behind, (sourceKinds headersSource).drop 13 =
        inside ++ .symbol .rightParen :: .symbol .leftBrace :: behind ∧
      .symbol .rightParen ∉ inside ∧
      (Separated inside ↔ inside.getLast? ≠ some (.symbol .comma)) ∧
      (inside.getLast? = some (.symbol .comma) → ∃ ds, ds ≠ [] ∧
        inside = listKinds ds ++ [.symbol .comma] ∧
        inside.count (.symbol .comma) = ds.length) := by
  have hsome : (compile {} headersSource).toOption.isSome = true := by decide +kernel
  have hheader : sourceKinds headersSource = (sourceKinds headersSource).take 10 ++
      .keyword (TypeName.mk .void .void rfl).word :: .identifier "g" :: .symbol .leftParen ::
        (sourceKinds headersSource).drop 13 := by decide +kernel
  obtain ⟨c, hc⟩ := Option.isSome_iff_exists.mp hsome
  exact ⟨hsome, hheader, separated_iff_of_compile (eq_ok_of_toOption hc) hheader⟩

/-- A comma behind the only parameter is let pass, although the grammar has none there. -/
theorem comma_passes :
    (compile {} "void f(int a,) {}").toOption.isSome = true ∧ ∃ inside behind,
      sourceKinds "void f(int a,) {}" = .keyword .void :: .identifier "f" :: .symbol .leftParen ::
        (inside ++ .symbol .rightParen :: behind) ∧
      .symbol .rightParen ∉ inside ∧ ¬ Separated inside := by
  refine ⟨by decide +kernel, [.keyword .int, .identifier "a", .symbol .comma],
    [.symbol .leftBrace, .symbol .rightBrace, .endOfInput], by decide +kernel, by simp, ?_⟩
  rintro ⟨ds, heq, -⟩
  exact getLast?_listKinds ds (congrArg List.getLast? heq).symm

end OnePass
