import OnePass.Proofs.Translation

/-!
# The documented grammar

The grammar as it is written down for readers of the language: one rule for each kind of
phrase, made of tokens and phrases with choices, optional parts and repetitions.  The
tokens of every source that compiles can be derived from it.

The rules are the documented ones with two differences.  A comma may follow the last
parameter of a method, and there are no `stop` statements if the options turn them off.

## Main definitions

* `Terminal`, `Phrase`, `Pattern` — what rules are made of.
* `Phrase.rule` — the rules.
* `Derives` — a list of tokens can be derived from a pattern.

## Main results

* `Expr.derives`, `Items.derives` — the tokens of a tree can be derived.
* `derives_of_compile` — **whatever compiles can be derived from the grammar**.
-/

namespace OnePass

/-! ### Rules -/

/-- The tokens as the rules name them, where all names, numbers and boolean values count as one. -/
inductive Terminal
  | word (w : Keyword)
  | mark (s : Symbol)
  | identifier
  | number
  | boolean
  | endOfInput
  deriving DecidableEq, Repr

/-- Whether a token is the one a rule names.  The value of a number or a name does not matter. -/
def Terminal.fits : Terminal → Token.Kind → Bool
  | .word w, .keyword w' => w = w'
  | .mark s, .symbol s' => s = s'
  | .identifier, .identifier _ => true
  | .number, .number _ => true
  | .boolean, .boolean _ => true
  | .endOfInput, .endOfInput => true
  | _, _ => false

/-- The kinds of phrases, each with a rule of its own. -/
inductive Phrase
  | program | statement | compound | «if» | «while» | printf | bug | stop
  | declaration | parameters | type
  | expression | additive | multiplicative | primary
  deriving DecidableEq, Repr

/-- The right side of a rule.  A repetition may be empty. -/
inductive Pattern
  | terminal (t : Terminal)
  | phrase (p : Phrase)
  | seq (parts : List Pattern)
  | choice (alternatives : List Pattern)
  | optional (part : Pattern)
  | many (part : Pattern)

namespace Pattern

/-- A keyword. -/
def word (w : Keyword) : Pattern := .terminal (.word w)

/-- A symbol. -/
def mark (s : Symbol) : Pattern := .terminal (.mark s)

/-- One of several symbols, such as the operators of a rung. -/
def oneOf (marks : List Symbol) : Pattern := .choice (marks.map mark)

/-- The items of a statement list, in any number and in any order. -/
def items : Pattern := .many (.choice [.phrase .declaration, .phrase .statement])

/-- A condition in parentheses, as a part of longer sequences. -/
def condition : List Pattern := [mark .leftParen, .phrase .expression, mark .rightParen]

/-- A parameter: a type and a name. -/
def parameter : List Pattern := [.phrase .type, .terminal .identifier]

end Pattern

open Pattern in
/-- The rules of the grammar.  `stops` tells whether there are `stop` statements. -/
def Phrase.rule (stops : Bool) : Phrase → Pattern
  | .program => .seq [items, .terminal .endOfInput]
  | .statement => .choice <|
    [.phrase .compound, .phrase .if, .phrase .while, .phrase .expression, mark .semicolon,
      .phrase .printf, .phrase .bug] ++ if stops then [.phrase .stop] else []
  | .compound => .seq [mark .leftBrace, items, mark .rightBrace]
  | .if => .seq <| [word .if] ++ condition ++
    [.phrase .statement, .optional (.seq [word .else, .phrase .statement])]
  | .while => .seq <| [word .while] ++ condition ++ [.phrase .statement]
  | .printf => .seq [word .printf, mark .leftParen, .optional (.terminal .identifier),
    mark .rightParen, mark .semicolon]
  | .bug => .seq [word .bug, .phrase .statement, mark .semicolon]
  | .stop => .choice
    [.seq [word .return, .optional (.phrase .expression), mark .semicolon],
      .seq [word .break, mark .semicolon], .seq [word .continue, mark .semicolon]]
  | .declaration => .seq [.phrase .type, .terminal .identifier, .choice
    [.seq [mark .leftParen, .optional (.phrase .parameters), mark .rightParen, .phrase .compound],
      mark .semicolon]]
  -- the comma at the end is the one extension
  | .parameters => .seq <| parameter ++
    [.many (.seq (mark .comma :: parameter)), .optional (mark .comma)]
  | .type => .choice <|
    [Keyword.int, .bool, .char, .string, .pchar, .ref, .void].map word
  | .expression => .seq [.phrase .additive, .optional (.seq
    [oneOf [.less, .lessEqual, .equalEqual, .bangEqual, .greaterEqual, .greater],
      .phrase .additive])]
  | .additive => .seq [.optional (oneOf [.plus, .minus]), .phrase .multiplicative, .many (.seq
    [oneOf [.plus, .minus, .bar, .barBar, .caret], .phrase .multiplicative])]
  | .multiplicative => .seq [.phrase .primary, .many (.seq
    [oneOf [.star, .slash, .percent, .amp, .ampAmp], .phrase .primary])]
  | .primary => .choice [.terminal .number, .terminal .boolean, .seq [.terminal .identifier,
    .optional (.seq [mark .equal, .phrase .expression, mark .semicolon])]]

/-! ### Derivations -/

/-- The tokens can be derived from the pattern.  One constructor for each way a pattern can be
used. -/
inductive Derives (stops : Bool) : Pattern → List Token.Kind → Prop
  | terminal {t : Terminal} {k : Token.Kind} (h : t.fits k = true) :
    Derives stops (.terminal t) [k]
  | phrase {p : Phrase} {ks : List Token.Kind} (h : Derives stops (p.rule stops) ks) :
    Derives stops (.phrase p) ks
  | nil : Derives stops (.seq []) []
  | cons {part : Pattern} {parts : List Pattern} {ks ls : List Token.Kind}
    (h : Derives stops part ks) (hs : Derives stops (.seq parts) ls) :
    Derives stops (.seq (part :: parts)) (ks ++ ls)
  | choice {part : Pattern} {alternatives : List Pattern} {ks : List Token.Kind}
    (hmem : part ∈ alternatives) (h : Derives stops part ks) :
    Derives stops (.choice alternatives) ks
  | absent {part : Pattern} : Derives stops (.optional part) []
  | present {part : Pattern} {ks : List Token.Kind} (h : Derives stops part ks) :
    Derives stops (.optional part) ks
  | done {part : Pattern} : Derives stops (.many part) []
  | more {part : Pattern} {ks ls : List Token.Kind} (h : Derives stops part ks)
    (hs : Derives stops (.many part) ls) : Derives stops (.many part) (ks ++ ls)

namespace Derives

variable {stops : Bool} {part : Pattern} {parts : List Pattern} {ks ls : List Token.Kind}

theorem of_eq (h : Derives stops part ks) (heq : ks = ls) : Derives stops part ls := heq ▸ h

theorem word (w : Keyword) : Derives stops (.word w) [.keyword w] := .terminal (decide_eq_true rfl)

theorem mark (s : Symbol) : Derives stops (.mark s) [.symbol s] := .terminal (decide_eq_true rfl)

theorem identifier (name : String) : Derives stops (.terminal .identifier) [.identifier name] :=
  .terminal rfl

theorem oneOf {s : Symbol} {marks : List Symbol} (h : s ∈ marks) :
    Derives stops (.oneOf marks) [.symbol s] :=
  .choice (List.mem_map_of_mem h) (.mark s)

/-- The parts of a sequence are derived one after the other, and their tokens put together. -/
theorem seq {kss : List (List Token.Kind)} (h : List.Forall₂ (Derives stops) parts kss) :
    Derives stops (.seq parts) kss.flatten := by
  induction h with
  | nil => exact .nil
  | cons hhead _ ih => exact .cons hhead ih

/-- Two sequences make one, with the tokens of the second behind those of the first. -/
theorem append {parts' : List Pattern} (h : Derives stops (.seq parts) ks)
    (h' : Derives stops (.seq parts') ls) : Derives stops (.seq (parts ++ parts')) (ks ++ ls) := by
  induction parts generalizing ks with
  | nil =>
    cases h
    exact h'
  | cons part parts ih =>
    cases h with
    | cons hhead htail => exact (Derives.cons hhead (ih htail)).of_eq (List.append_assoc ..).symm

/-- An operator and its right operand, which is one round of a chain of operators. -/
theorem operator {s : Symbol} {marks : List Symbol} (hs : s ∈ marks) (h : Derives stops part ks) :
    Derives stops (.seq [.oneOf marks, part]) (.symbol s :: ks) :=
  (Derives.cons (.oneOf hs) (.cons h .nil)).of_eq (by simp)

/-- One round of a repetition for each element of a list, in the order of the list. -/
theorem many {α : Type} {f : α → List Token.Kind} (h : ∀ x, Derives stops part (f x)) :
    ∀ xs : List α, Derives stops (.many part) (xs.flatMap f)
  | [] => .done
  | x :: xs => .more (h x) (many h xs)

/-- A repetition at the end of a sequence can go on with one more round at its end.  This is how
trees that lean to the left are derived. -/
theorem snoc (parts : List Pattern) (h : Derives stops (.seq (parts ++ [.many part])) ks)
    (hpart : Derives stops part ls) :
    Derives stops (.seq (parts ++ [.many part])) (ks ++ ls) := by
  induction parts generalizing ks with
  | nil =>
    -- the repetition alone: it ends in one more round
    suffices hmany : ∀ {p ks}, Derives stops p ks → p = .many part →
        Derives stops (.many part) (ks ++ ls) by
      cases h with
      | cons hhead htail =>
        cases htail
        exact (Derives.cons (hmany hhead rfl) .nil).of_eq (by simp)
    intro p ks hp
    induction hp with
    | done =>
      intro _
      exact (Derives.more hpart .done).of_eq (by simp)
    | more hround _ _ ih =>
      intro heq
      obtain rfl := Pattern.many.inj heq
      exact (Derives.more hround (ih rfl)).of_eq (by simp)
    | _ => intro heq; cases heq
  | cons p parts ih =>
    cases h with
    | cons hhead htail => exact (Derives.cons hhead (ih htail)).of_eq (by simp)

end Derives

/-! ### Expressions -/

/-- What the grammar calls the expressions on a rung.  A sum without operators has no name there. -/
def Rung.pattern : Rung → Pattern
  | .primary => .phrase .primary
  | .term => .phrase .multiplicative
  | .signed => .seq [.optional (.oneOf [.plus, .minus]), .phrase .multiplicative]
  | .sum => .phrase .additive
  | .relation => .phrase .expression

/-- The tokens of an expression can be derived, whether or not it means something. -/
theorem Expr.derives (stops : Bool) : ∀ {r : Rung} (e : Expr r), Derives stops r.pattern e.kinds
  | _, .number value => .phrase (.choice (.head _) (.terminal rfl))
  | _, .boolean value => .phrase (.choice (.tail _ (.head _)) (.terminal rfl))
  | _, .name text => by
    refine .phrase (.choice (.tail _ (.tail _ (.head _))) ?_)
    exact .cons (.identifier text) (.cons .absent .nil)
  | _, .assign target value => by
    refine .phrase (.choice (.tail _ (.tail _ (.head _))) ?_)
    have htail := Derives.seq (.cons (.mark .equal) (.cons (value.derives stops)
      (.cons (.mark .semicolon) .nil)))
    refine (Derives.cons (.identifier target) (.cons (.present htail) .nil)).of_eq ?_
    simp [kinds]
  | _, .factor e => by
    refine .phrase ((Derives.cons (e.derives stops) (.cons .done .nil)).of_eq ?_)
    simp [kinds]
  | _, .product left op right => by
    -- a tree leans to the left, and a derivation is a list: the last factor goes to its end
    have hop : op.symbol ∈ [Symbol.star, .slash, .percent, .amp, .ampAmp] := by
      cases op <;> decide
    cases left.derives stops with
    | phrase hleft =>
      exact .phrase (.snoc [.phrase .primary] hleft (.operator hop (right.derives stops)))
  | _, .unsigned e => .cons .absent ((Derives.cons (e.derives stops) .nil).of_eq (by simp))
  | _, .signed sign e => by
    have hsign : sign.symbol ∈ [Symbol.plus, .minus] := by cases sign <;> decide
    refine (Derives.cons (.present (.oneOf hsign)) (.cons (e.derives stops) .nil)).of_eq ?_
    simp [kinds]
  | _, .first e => by
    refine .phrase ((Derives.append (e.derives stops) (.cons .done .nil)).of_eq ?_)
    simp [kinds]
  | _, .sum left op right => by
    -- the same with the last term of a sum, behind the sign and the first one
    have hop : op.symbol ∈ [Symbol.plus, .minus, .bar, .barBar, .caret] := by
      cases op <;> decide
    cases left.derives stops with
    | phrase hleft =>
      exact .phrase (.snoc [.optional (.oneOf [.plus, .minus]), .phrase .multiplicative] hleft
        (.operator hop (right.derives stops)))
  | _, .single e => by
    refine .phrase ((Derives.cons (e.derives stops) (.cons .absent .nil)).of_eq ?_)
    simp [kinds]
  | _, .comparison left op right => by
    have hop : op.symbol ∈
        [Symbol.less, .lessEqual, .equalEqual, .bangEqual, .greaterEqual, .greater] := by
      cases op <;> decide
    refine .phrase ((Derives.cons (left.derives stops)
      (.cons (.present (.operator hop (right.derives stops))) .nil)).of_eq ?_)
    simp [kinds]

/-! ### Statements and items -/

/-- The tokens of a condition can be derived, with the parentheses around them. -/
theorem Expr.derives_condition (stops : Bool) (e : Expr .relation) :
    Derives stops (.seq Pattern.condition) e.conditionKinds := by
  refine (Derives.seq (.cons (.mark .leftParen) (.cons (e.derives stops)
    (.cons (.mark .rightParen) .nil)))).of_eq ?_
  simp [conditionKinds]

/-- The keyword of a type can be derived: only the keywords of the rule name types. -/
theorem TypeName.derives (stops : Bool) (t : TypeName) :
    Derives stops (.phrase .type) [.keyword t.word] := by
  have hword : t.word ∈ [Keyword.int, .bool, .char, .string, .pchar, .ref, .void] := by
    have hnamed := t.named
    cases hcase : t.word <;> first | decide | (rw [hcase] at hnamed; cases hnamed)
  exact .phrase (.choice (List.mem_map_of_mem hword) (.word _))

/-- The tokens of a parameter can be derived from its type and its name. -/
theorem Declarator.derives (stops : Bool) (d : Declarator) :
    Derives stops (.seq Pattern.parameter) d.kinds :=
  .cons (d.type.derives stops) (.cons (.identifier d.name) .nil)

/-- The tokens of a list of parameters can be derived, a comma at its end included. -/
theorem Declarator.derives_list (stops : Bool) (d : Declarator) (ds : List Declarator)
    (comma : Bool) :
    Derives stops (.phrase .parameters)
      (listKinds (d :: ds) ++ if comma then [.symbol .comma] else []) := by
  have hrest : Derives stops (.many (.seq (.mark .comma :: Pattern.parameter)))
      (ds.flatMap fun d => .symbol .comma :: d.kinds) :=
    .many (fun d => .cons (.mark .comma) (d.derives stops)) ds
  have hcomma : Derives stops (.optional (.mark .comma))
      (if comma then [.symbol .comma] else []) := by
    cases comma
    · exact .absent
    · exact .present (.mark .comma)
  refine .phrase ((Derives.append (d.derives stops) (.cons hrest (.cons hcomma .nil))).of_eq ?_)
  simp [listKinds_eq]

/-- The tokens of a well-formed list of parameters can be derived, if there are any. -/
theorem Declarator.derives_parameters (stops : Bool) {parameters : List Declarator} {comma : Bool}
    (h : wellFormed parameters comma = true) :
    Derives stops (.optional (.phrase .parameters))
      (listKinds parameters ++ if comma then [.symbol .comma] else []) := by
  cases parameters with
  | nil =>
    -- without a parameter there is no comma
    cases comma with
    | false => exact .absent
    | true => simp [wellFormed] at h
  | cons d ds => exact .present (derives_list stops d ds comma)

/-- One of the statements that are always there, whatever the options are. -/
theorem Derives.statement {stops : Bool} {p : Pattern} {ks : List Token.Kind}
    (hmem : p ∈ [.phrase .compound, .phrase .if, .phrase .while, .phrase .expression,
      .mark .semicolon, .phrase .printf, .phrase .bug]) (h : Derives stops p ks) :
    Derives stops (.phrase .statement) ks :=
  .phrase (.choice (List.mem_append_left _ hmem) h)

/-- A statement that the options can turn off.  It can be derived only if they do not. -/
theorem Derives.stop {stops : Bool} {p : Pattern} {ks : List Token.Kind} (hstops : stops = true)
    (hmem : p ∈ [.seq [.word .return, .optional (.phrase .expression), .mark .semicolon],
      .seq [.word .break, .mark .semicolon], .seq [.word .continue, .mark .semicolon]])
    (h : Derives stops p ks) : Derives stops (.phrase .statement) ks := by
  subst hstops
  exact .phrase (.choice (List.mem_append_right _ (.head _)) (.phrase (.choice hmem h)))

/-- A compound statement around the tokens of a statement list. -/
theorem Derives.compound {stops : Bool} {ks : List Token.Kind} (h : Derives stops .items ks) :
    Derives stops (.phrase .compound) (.symbol .leftBrace :: ks ++ [.symbol .rightBrace]) :=
  .phrase ((Derives.seq (.cons (.mark .leftBrace) (.cons h
    (.cons (.mark .rightBrace) .nil)))).of_eq (by simp))

mutual

/-- The tokens of a statement that means something can be derived.  That it means something is
needed for the statements that the options turn off. -/
theorem Stmt.derives : ∀ (s : Stmt) {σ : Site} {f : Fragment}, s.lower? σ = some f →
    Derives σ.options.stopStatements (.phrase .statement) s.kinds
  | .block items, _, _, h => .statement (by simp) (.compound (items.derives h))
  | .branch condition body, σ, _, h => by
    obtain ⟨code, -, g, hg, -⟩ := Stmt.lower?_branch.mp h
    have hbody : Derives σ.options.stopStatements (.phrase .statement) body.kinds :=
      (body.derives hg :)
    refine .statement (p := .phrase .if) (by simp) (.phrase ((Derives.append
      (.append (.cons (.word .if) .nil) (condition.derives_condition _))
      (.cons hbody (.cons .absent .nil))).of_eq ?_))
    simp [Stmt.kinds]
  | .choice condition body other, σ, _, h => by
    obtain ⟨code, -, g, hg, g', hg', -⟩ := Stmt.lower?_choice.mp h
    have hbody : Derives σ.options.stopStatements (.phrase .statement) body.kinds :=
      (body.derives hg :)
    have hother : Derives σ.options.stopStatements (.phrase .statement) other.kinds :=
      (other.derives hg' :)
    refine .statement (p := .phrase .if) (by simp) (.phrase ((Derives.append
      (.append (.cons (.word .if) .nil) (condition.derives_condition _))
      (.cons hbody (.cons (.present (.cons (.word .else) (.cons hother .nil))) .nil))).of_eq ?_))
    simp [Stmt.kinds]
  | .loop condition body, σ, _, h => by
    obtain ⟨code, -, g, hg, -⟩ := Stmt.lower?_loop.mp h
    have hbody : Derives σ.options.stopStatements (.phrase .statement) body.kinds :=
      (body.derives hg :)
    refine .statement (p := .phrase .while) (by simp) (.phrase ((Derives.append
      (.append (.cons (.word .while) .nil) (condition.derives_condition _))
      (.cons hbody .nil)).of_eq ?_))
    simp [Stmt.kinds]
  | .expression e, _, _, _ => .statement (p := .phrase .expression) (by simp) (e.derives _)
  | .empty, _, _, _ => .statement (by simp) (.mark .semicolon)
  | .print argument, _, _, _ => by
    have hargument (stops : Bool) : Derives stops (.optional (.terminal .identifier))
        (argument.map Token.Kind.identifier).toList := by
      cases argument with
      | none => exact .absent
      | some x => exact .present (.identifier x)
    refine .statement (p := .phrase .printf) (by simp) (.phrase ((Derives.seq (.cons (.word .printf)
      (.cons (.mark .leftParen) (.cons (hargument _) (.cons (.mark .rightParen)
      (.cons (.mark .semicolon) .nil)))))).of_eq ?_))
    simp [Stmt.kinds]
  | .bug body, _, _, h => by
    refine .statement (p := .phrase .bug) (by simp) (.phrase ((Derives.seq
      (.cons (.word .bug) (.cons (body.derives h) (.cons (.mark .semicolon) .nil)))).of_eq ?_))
    simp [Stmt.kinds]
  | .ret none, _, _, h => by
    -- stop statements mean nothing unless they are enabled
    obtain ⟨⟨hstops, -⟩, -⟩ := Stmt.lower?_ret_none.mp h
    exact .stop hstops (.head _)
      (.cons (.word .return) (.cons .absent (.cons (.mark .semicolon) .nil)))
  | .ret (some e), _, _, h => by
    obtain ⟨code, -, ⟨hstops, -⟩, -⟩ := Stmt.lower?_ret_some.mp h
    refine .stop hstops (.head _) ((Derives.seq (.cons (.word .return)
      (.cons (.present (e.derives _)) (.cons (.mark .semicolon) .nil)))).of_eq ?_)
    simp [Stmt.kinds]
  | .leave .break, _, _, h => by
    obtain ⟨exits, -, hstops, -⟩ := Stmt.lower?_leave.mp h
    exact .stop hstops (.tail _ (.head _)) (.cons (.word .break) (.cons (.mark .semicolon) .nil))
  | .leave .continue, _, _, h => by
    obtain ⟨exits, -, hstops, -⟩ := Stmt.lower?_leave.mp h
    exact .stop hstops (.tail _ (.tail _ (.head _)))
      (.cons (.word .continue) (.cons (.mark .semicolon) .nil))

/-- The tokens of an item that means something can be derived, as a declaration or as a
statement. -/
theorem Item.derives : ∀ (item : Item) {σ : Site} {f : Fragment}, item.lower? σ = some f →
    Derives σ.options.stopStatements (.choice [.phrase .declaration, .phrase .statement]) item.kinds
  | .field type name, _, _, _ => by
    refine .choice (.head _) (.phrase ?_)
    exact .cons (type.derives _) (.cons (.identifier name)
      (.cons (.choice (.tail _ (.head _)) (.mark .semicolon)) .nil))
  | .method type name parameters comma body, σ, _, h => by
    obtain ⟨g, hg, ⟨-, hformed⟩, -⟩ := Item.lower?_method.mp h
    have hbody : Derives σ.options.stopStatements .items body.kinds := (body.derives hg :)
    have hrest := Derives.seq (.cons (.mark .leftParen)
      (.cons (Declarator.derives_parameters σ.options.stopStatements hformed)
      (.cons (.mark .rightParen) (.cons (.compound hbody) .nil))))
    refine .choice (.head _) (.phrase ((Derives.cons (type.derives _) (.cons (.identifier name)
      (.cons (.choice (.head _) hrest) .nil))).of_eq ?_))
    simp [Item.kinds, Declarator.headerKinds]
  | .statement s, _, _, h => .choice (.tail _ (.head _)) (s.derives h)

/-- The tokens of a statement list that means something can be derived, one round for each item. -/
theorem Items.derives : ∀ (items : Items) {σ : Site} {f : Fragment}, items.lower? σ = some f →
    Derives σ.options.stopStatements .items items.kinds
  | .nil, _, _, _ => .done
  | .cons item rest, _, _, h => by
    obtain ⟨g, hg, g', hg', -⟩ := Items.lower?_cons.mp h
    exact .more (item.derives hg) (rest.derives hg' :)

end

/-- **Whatever compiles can be derived from the grammar.**  The source is read without a
scan error, and all of its tokens, the end of the input included, make up a program. -/
theorem derives_of_compile {options : Options} {source : String} {c : Compilation}
    (h : compile options source = .ok c) :
    ∃ tokens, Scans source tokens ∧
      Derives options.stopStatements (.phrase .program) (tokens.map Token.kind) := by
  obtain ⟨items, tokens, ⟨hscans, hkinds⟩, -, hprogram, -⟩ := compile_eq_ok_iff.mp h
  obtain ⟨f, hf, -⟩ := Items.program?_eq_some.mp hprogram
  have hitems : Derives options.stopStatements .items items.kinds := items.derives hf
  refine ⟨tokens, hscans, .phrase ?_⟩
  rw [hkinds]
  exact .cons hitems (.cons (.terminal rfl) .nil)

/-- A source with a comma behind its last parameter, and with a statement that can be turned off. -/
def commaSource : String :=
  "int x; bool m(int a, bool b,) { if (a < 1) return b; return x == a; } x = 2;"

theorem derives_of_compile_comma :
    (compile {} commaSource).toOption.isSome = true ∧ ∃ tokens, Scans commaSource tokens ∧
      Derives true (.phrase .program) (tokens.map Token.kind) := by
  have hsome : (compile {} commaSource).toOption.isSome = true := by decide +kernel
  obtain ⟨c, hc⟩ := Option.isSome_iff_exists.mp hsome
  exact ⟨hsome, derives_of_compile (eq_ok_of_toOption hc)⟩

end OnePass
