import OnePass.Diagnostic
import OnePass.Operator

/-!
# Syntax trees

The grammar as trees.  An expression tree belongs to a rung of the ladder of operators,
so that a tree can only be built the way the grammar allows; statements, items and
lists of items contain each other.  An assignment ends in its own semicolon and may
stand wherever an operand may.

Tokens do not always determine a tree: an operator, an equal sign or `else` after a
tree could as well be part of it.  The pass always goes on then, so what counts are
trees that are not followed by something that would have been read with them.

## Main definitions

* `Expr`, `Stmt`, `Item`, `Items` — the trees.
* `kinds` — the tokens of a tree.
* `goesOn` — whether reading a tree would go on with the next token.
* `Stmt.closed`, `Items.closed` — no part of the tree is followed by something that would
  have been read with it.
* `Stmt.braced`, `Items.braced` — the fully punctuated form: every body is a block, and
  an expression that is a statement ends in a semicolon.

## Main results

* `Items.closed_of_braced` — **the fully punctuated form is unambiguous**.
-/

namespace OnePass

/-! ### Expressions -/

/-- The rungs of the ladder of operators, the tightest one first.  A sign stands on a rung of its
own, as it applies to the first term of a sum and to no other. -/
inductive Rung
  | primary | term | signed | sum | relation
  deriving DecidableEq, Repr

/-- The signs an expression can begin with. -/
inductive Sign
  | plus | minus
  deriving DecidableEq, Repr

/-- The symbol of a sign. -/
def Sign.symbol : Sign → Symbol
  | .plus => .plus
  | .minus => .minus

/-- The expressions on a rung.  The operators of one rung associate to the left, so their left
operand is on the same rung again and the right one further down; comparisons do not associate. -/
inductive Expr : Rung → Type
  | number (value : Nat) : Expr .primary
  | boolean (value : Bool) : Expr .primary
  | name (text : String) : Expr .primary
  /-- An assignment, with its semicolon. -/
  | assign (target : String) (value : Expr .relation) : Expr .primary
  | factor (e : Expr .primary) : Expr .term
  | product (left : Expr .term) (op : MultiplicativeOp) (right : Expr .primary) : Expr .term
  | unsigned (e : Expr .term) : Expr .signed
  | signed (sign : Sign) (e : Expr .term) : Expr .signed
  | first (e : Expr .signed) : Expr .sum
  | sum (left : Expr .sum) (op : AdditiveOp) (right : Expr .term) : Expr .sum
  | single (e : Expr .sum) : Expr .relation
  | comparison (left : Expr .sum) (op : ComparisonOp) (right : Expr .sum) : Expr .relation

/-- The operator a token stands for, if `select` knows its symbol.  Each rung has a lookup of its
own. -/
def Token.Kind.operator? {ω : Type} (select : Symbol → Option ω) : Token.Kind → Option ω
  | .symbol mark => select mark
  | _ => none

/-- The type a token names. -/
def Token.Kind.type? : Token.Kind → Option Ty
  | .keyword word => Ty.ofKeyword? word
  | _ => none

/-- The text of a token that is a name. -/
def Token.Kind.name? : Token.Kind → Option String
  | .identifier name => some name
  | _ => none

namespace Expr

/-- The tokens of an expression. -/
def kinds : {r : Rung} → Expr r → List Token.Kind
  | _, .number value => [.number value]
  | _, .boolean value => [.boolean value]
  | _, .name text => [.identifier text]
  | _, .assign target value =>
    [.identifier target, .symbol .equal] ++ value.kinds ++ [.symbol .semicolon]
  | _, .factor e => e.kinds
  | _, .product left op right => left.kinds ++ .symbol op.symbol :: right.kinds
  | _, .unsigned e => e.kinds
  | _, .signed sign e => .symbol sign.symbol :: e.kinds
  | _, .first e => e.kinds
  | _, .sum left op right => left.kinds ++ .symbol op.symbol :: right.kinds
  | _, .single e => e.kinds
  | _, .comparison left op right => left.kinds ++ .symbol op.symbol :: right.kinds

/-- Whether the expression is just an assignment, on whatever rung. -/
def isAssign : {r : Rung} → Expr r → Bool
  | _, .assign _ _ => true
  | _, .factor e => e.isAssign
  | _, .unsigned e => e.isAssign
  | _, .first e => e.isAssign
  | _, .single e => e.isAssign
  | _, _ => false

/-- Whether reading the expression would go on with the next token: an equal sign makes a
name an assignment, and an operator of a rung brings another operand.  After an
assignment no operator is looked for. -/
def goesOn (next : Token.Kind) : {r : Rung} → Expr r → Bool
  | _, .number _ => false
  | _, .boolean _ => false
  | _, .name _ => next = .symbol .equal
  | _, .assign _ _ => false
  | _, .factor e =>
    e.goesOn next || (!e.isAssign && (next.operator? MultiplicativeOp.ofSymbol?).isSome)
  | _, .product _ _ right =>
    right.goesOn next || (next.operator? MultiplicativeOp.ofSymbol?).isSome
  | _, .unsigned e => e.goesOn next
  | _, .signed _ e => e.goesOn next
  | _, .first e =>
    e.goesOn next || (!e.isAssign && (next.operator? AdditiveOp.ofSymbol?).isSome)
  | _, .sum _ _ right => right.goesOn next || (next.operator? AdditiveOp.ofSymbol?).isSome
  | _, .single e =>
    e.goesOn next || (!e.isAssign && (next.operator? ComparisonOp.ofSymbol?).isSome)
  | _, .comparison _ _ right => right.goesOn next

/-- Whether there is no assignment anywhere in the expression. -/
def pure : {r : Rung} → Expr r → Bool
  | _, .number _ => true
  | _, .boolean _ => true
  | _, .name _ => true
  | _, .assign _ _ => false
  | _, .factor e => e.pure
  | _, .product left _ right => left.pure && right.pure
  | _, .unsigned e => e.pure
  | _, .signed _ e => e.pure
  | _, .first e => e.pure
  | _, .sum left _ right => left.pure && right.pure
  | _, .single e => e.pure
  | _, .comparison left _ right => left.pure && right.pure

/-- Whether there is at most one assignment in the expression, and that is the last operand.  Its
semicolon is then the end of the expression. -/
def tidy : {r : Rung} → Expr r → Bool
  | _, .number _ => true
  | _, .boolean _ => true
  | _, .name _ => true
  | _, .assign _ value => value.pure
  | _, .factor e => e.tidy
  | _, .product left _ right => left.pure && right.tidy
  | _, .unsigned e => e.tidy
  | _, .signed _ e => e.tidy
  | _, .first e => e.tidy
  | _, .sum left _ right => left.pure && right.tidy
  | _, .single e => e.tidy
  | _, .comparison left _ right => left.pure && right.tidy

/-- The number of instructions of an expression.  It does not depend on the types, though the
instructions do. -/
def size : {r : Rung} → Expr r → Nat
  | _, .number _ => 1
  | _, .boolean _ => 1
  | _, .name _ => 1
  | _, .assign _ value => value.size + 2
  | _, .factor e => e.size
  | _, .product left _ right => left.size + right.size + 1
  | _, .unsigned e => e.size
  | _, .signed sign e => match sign with
    | .plus => e.size
    | .minus => e.size + 1
  | _, .first e => e.size
  | _, .sum left _ right => left.size + right.size + 1
  | _, .single e => e.size
  | _, .comparison left _ right => left.size + right.size + 1

end Expr

/-- The tokens of a condition: an expression in parentheses. -/
def Expr.conditionKinds (e : Expr .relation) : List Token.Kind :=
  .symbol .leftParen :: e.kinds ++ [.symbol .rightParen]

/-! ### Types and headers -/

/-- A type as it is written.  The keyword and the type always belong together. -/
structure TypeName where
  /-- The keyword. -/
  word : Keyword
  /-- The type it names. -/
  ty : Ty
  named : Ty.ofKeyword? word = some ty

theorem Token.Kind.type?_eq_some {k : Token.Kind} {ty : Ty} (h : k.type? = some ty) :
    ∃ t : TypeName, k = .keyword t.word ∧ t.ty = ty := by
  cases k with
  | keyword word => exact ⟨⟨word, ty, h⟩, rfl, rfl⟩
  | _ => simp [Token.Kind.type?] at h

theorem Token.Kind.name?_eq_some {k : Token.Kind} {name : String} (h : k.name? = some name) :
    k = .identifier name := by
  cases k with
  | identifier text => exact congrArg _ (Option.some.inj h)
  | _ => simp [Token.Kind.name?] at h

/-- A type and a name: a parameter of a method. -/
structure Declarator where
  type : TypeName
  name : String

/-- The tokens of a parameter. -/
def Declarator.kinds (d : Declarator) : List Token.Kind :=
  [.keyword d.type.word, .identifier d.name]

/-- The tokens of a list of parameters. -/
def Declarator.listKinds : List Declarator → List Token.Kind
  | [] => []
  | [d] => d.kinds
  | d :: ds => d.kinds ++ .symbol .comma :: Declarator.listKinds ds

theorem Declarator.listKinds_cons (d : Declarator) {ds : List Declarator} (h : ds ≠ []) :
    listKinds (d :: ds) = d.kinds ++ .symbol .comma :: listKinds ds := by
  cases ds with
  | nil => exact absurd rfl h
  | cons d' ds => rfl

/-- A comma stands before every parameter but the first, so that the list can be split after any
parameter. -/
theorem Declarator.listKinds_eq (d : Declarator) (ds : List Declarator) :
    listKinds (d :: ds) = d.kinds ++ ds.flatMap fun d => .symbol .comma :: d.kinds := by
  induction ds generalizing d with
  | nil => simp [listKinds]
  | cons d' ds ih => rw [listKinds_cons d (List.cons_ne_nil d' ds), ih, List.flatMap_cons,
      List.cons_append]

/-- The tokens of a method up to the opening brace of its body.  A comma may also follow the last
parameter. -/
def Declarator.headerKinds (type : TypeName) (name : String) (parameters : List Declarator)
    (comma : Bool) : List Token.Kind :=
  [.keyword type.word, .identifier name, .symbol .leftParen] ++ listKinds parameters
    ++ (if comma then [.symbol .comma] else []) ++ [.symbol .rightParen, .symbol .leftBrace]

/-! ### Where no keyword stands -/

/-- There are no keywords in expressions: the boolean literals are tokens of their own. -/
theorem Expr.keyword_notMem_kinds (w : Keyword) : ∀ {r : Rung} (e : Expr r), .keyword w ∉ e.kinds
  | _, .number _ => by simp [kinds]
  | _, .boolean _ => by simp [kinds]
  | _, .name _ => by simp [kinds]
  | _, .assign _ value => by simp [kinds, value.keyword_notMem_kinds w]
  | _, .factor e => e.keyword_notMem_kinds w
  | _, .product left _ right => by
    simp [kinds, left.keyword_notMem_kinds w, right.keyword_notMem_kinds w]
  | _, .unsigned e => e.keyword_notMem_kinds w
  | _, .signed _ e => by simp [kinds, e.keyword_notMem_kinds w]
  | _, .first e => e.keyword_notMem_kinds w
  | _, .sum left _ right => by
    simp [kinds, left.keyword_notMem_kinds w, right.keyword_notMem_kinds w]
  | _, .single e => e.keyword_notMem_kinds w
  | _, .comparison left _ right => by
    simp [kinds, left.keyword_notMem_kinds w, right.keyword_notMem_kinds w]

theorem Expr.keyword_notMem_conditionKinds (w : Keyword) (e : Expr .relation) :
    .keyword w ∉ e.conditionKinds := by
  simp [conditionKinds, e.keyword_notMem_kinds w]

/-- A keyword that names a type is none of the others. -/
theorem TypeName.word_ne (t : TypeName) (word : Keyword) (h : Ty.ofKeyword? word = none) :
    t.word ≠ word := by
  rintro rfl
  simp [t.named] at h

/-- All keywords in front of the body of a method name types, its own or those of its parameters. -/
theorem Declarator.keyword_notMem_headerKinds {w : Keyword} (hw : Ty.ofKeyword? w = none)
    (type : TypeName) (name : String) (ds : List Declarator) (comma : Bool) :
    .keyword w ∉ headerKinds type name ds comma := by
  have hne (type : TypeName) : w ≠ type.word := (type.word_ne w hw).symm
  have hlist : .keyword w ∉ listKinds ds := by
    cases ds with
    | nil => exact List.not_mem_nil
    | cons d ds =>
      rw [listKinds_eq]
      simp [kinds, hne]
  cases comma <;> simp [headerKinds, hlist, hne]

/-! ### Statements and lists of items -/

/-- The statements that leave a round of a loop. -/
inductive Exit
  | break | continue
  deriving DecidableEq, Repr

/-- The keyword of a statement that leaves a round. -/
def Exit.word : Exit → Keyword
  | .break => .break
  | .continue => .continue

mutual

/-- The statements.  A body is a single statement, which may be a block; a choice has a body for
either case. -/
inductive Stmt
  | block (items : Items)
  | branch (condition : Expr .relation) (body : Stmt)
  | choice (condition : Expr .relation) (body other : Stmt)
  | loop (condition : Expr .relation) (body : Stmt)
  | expression (e : Expr .relation)
  | empty
  | print (argument : Option String)
  | bug (body : Stmt)
  | ret (value : Option (Expr .relation))
  | leave (exit : Exit)

/-- The items of a statement list.  Declarations are items but not statements, so they cannot be the
body of anything. -/
inductive Item
  | field (type : TypeName) (name : String)
  /-- A method; `comma` tells whether a comma follows the last parameter. -/
  | method (type : TypeName) (name : String) (parameters : List Declarator) (comma : Bool)
      (body : Items)
  | statement (s : Stmt)

/-- The statement lists: blocks, bodies of methods, and whole programs. -/
inductive Items
  | nil
  | cons (item : Item) (rest : Items)

end

mutual

/-- The tokens of a statement.  Only an assignment brings the semicolon of an expression, so one
behind any other expression is an empty statement. -/
def Stmt.kinds : Stmt → List Token.Kind
  | .block items => .symbol .leftBrace :: items.kinds ++ [.symbol .rightBrace]
  | .branch condition body => .keyword .if :: condition.conditionKinds ++ body.kinds
  | .choice condition body other =>
    .keyword .if :: condition.conditionKinds ++ body.kinds ++ .keyword .else :: other.kinds
  | .loop condition body => .keyword .while :: condition.conditionKinds ++ body.kinds
  | .expression e => e.kinds
  | .empty => [.symbol .semicolon]
  | .print argument =>
    [.keyword .printf, .symbol .leftParen] ++ (argument.map Token.Kind.identifier).toList
      ++ [.symbol .rightParen, .symbol .semicolon]
  | .bug body => .keyword .bug :: body.kinds ++ [.symbol .semicolon]
  | .ret value =>
    .keyword .return :: (value.map Expr.kinds).getD [] ++ [.symbol .semicolon]
  | .leave exit => [.keyword exit.word, .symbol .semicolon]

/-- The tokens of an item. -/
def Item.kinds : Item → List Token.Kind
  | .field type name => [.keyword type.word, .identifier name, .symbol .semicolon]
  | .method type name parameters comma body =>
    Declarator.headerKinds type name parameters comma ++ body.kinds ++ [.symbol .rightBrace]
  | .statement s => s.kinds

/-- The tokens of a statement list. -/
def Items.kinds : Items → List Token.Kind
  | .nil => []
  | .cons item rest => item.kinds ++ rest.kinds

end

/-- Whether reading the statement would go on with the next token: with an operator of its last
expression, or with `else`.  What ends in a semicolon or a brace of its own never goes on. -/
def Stmt.goesOn (next : Token.Kind) : Stmt → Bool
  | .branch _ body => next = .keyword .else || body.goesOn next
  | .choice _ _ other => other.goesOn next
  | .loop _ body => body.goesOn next
  | .expression e => e.goesOn next
  | _ => false

/-- Whether reading the item would go on with the next token. -/
def Item.goesOn (next : Token.Kind) : Item → Bool
  | .statement s => s.goesOn next
  | _ => false

mutual

/-- No part of the statement is followed by something that would have been read with it.  Only
`else` can come between two parts of a statement that might both go on. -/
def Stmt.closed : Stmt → Bool
  | .block items => items.closed
  | .branch _ body => body.closed
  | .choice _ body other => !body.goesOn (.keyword .else) && body.closed && other.closed
  | .loop _ body => body.closed
  | .bug body => body.closed
  | _ => true

/-- No part of the item is followed by something that would have been read with it. -/
def Item.closed : Item → Bool
  | .field _ _ => true
  | .method _ _ _ _ body => body.closed
  | .statement s => s.closed

/-- No part of a statement list is followed by something that would have been read with it, if the
list itself ends in a brace.  The end of the input would do as well, since nothing goes on with that
either. -/
def Items.closed : Items → Bool
  | .nil => true
  | .cons item rest =>
    !item.goesOn (rest.kinds.head?.getD (.symbol .rightBrace)) && item.closed && rest.closed

end

/-! ### Warnings -/

mutual

/-- The warnings of a statement that stands at the beginning of the given tokens: one for each
`bug`, where it stands, those of the marked statement first, since it is read first. -/
def Stmt.warnings : Stmt → List Token → List Diagnostic
  | .block items, ts => items.warnings (ts.drop 1)
  -- the body stands behind the keyword and the condition
  | .branch condition body, ts => body.warnings (ts.drop (condition.conditionKinds.length + 1))
  | .choice condition body other, ts =>
    let ts := ts.drop (condition.conditionKinds.length + 1)
    body.warnings ts ++ other.warnings (ts.drop (body.kinds.length + 1))
  | .loop condition body, ts => body.warnings (ts.drop (condition.conditionKinds.length + 1))
  | .bug body, ts =>
    body.warnings (ts.drop 1) ++ ts.head?.toList.map fun t => .warning t.position .possibleBug
  | .expression _, _ => []
  | .empty, _ => []
  | .print _, _ => []
  | .ret _, _ => []
  | .leave _, _ => []

/-- The warnings of an item. -/
def Item.warnings : Item → List Token → List Diagnostic
  | .field _ _, _ => []
  | .method type name parameters comma body, ts =>
    body.warnings (ts.drop (Declarator.headerKinds type name parameters comma).length)
  | .statement s, ts => s.warnings ts

/-- The warnings of a statement list. -/
def Items.warnings : Items → List Token → List Diagnostic
  | .nil, _ => []
  | .cons item rest, ts => item.warnings ts ++ rest.warnings (ts.drop item.kinds.length)

end

/-! ### First tokens -/

/-- The tokens an expression can begin with.  No statement of any other form begins with one of
them. -/
def Token.Kind.beginsExpr : Token.Kind → Bool
  | .number _ => true
  | .boolean _ => true
  | .identifier _ => true
  | .symbol .plus => true
  | .symbol .minus => true
  | _ => false

theorem Expr.kinds_eq_cons : ∀ {r : Rung} (e : Expr r),
    ∃ k rest, e.kinds = k :: rest ∧ k.beginsExpr = true
  | _, .number _ => ⟨_, _, rfl, rfl⟩
  | _, .boolean _ => ⟨_, _, rfl, rfl⟩
  | _, .name _ => ⟨_, _, rfl, rfl⟩
  | _, .assign _ _ => ⟨_, _, rfl, rfl⟩
  | _, .factor e => kinds_eq_cons e
  | _, .unsigned e => kinds_eq_cons e
  | _, .first e => kinds_eq_cons e
  | _, .single e => kinds_eq_cons e
  | _, .signed sign e => ⟨.symbol sign.symbol, e.kinds, rfl, by cases sign <;> rfl⟩
  | _, .product left op right => by
    obtain ⟨k, rest, h, hk⟩ := kinds_eq_cons left
    exact ⟨k, rest ++ .symbol op.symbol :: right.kinds, by simp [kinds, h], hk⟩
  | _, .sum left op right => by
    obtain ⟨k, rest, h, hk⟩ := kinds_eq_cons left
    exact ⟨k, rest ++ .symbol op.symbol :: right.kinds, by simp [kinds, h], hk⟩
  | _, .comparison left op right => by
    obtain ⟨k, rest, h, hk⟩ := kinds_eq_cons left
    exact ⟨k, rest ++ .symbol op.symbol :: right.kinds, by simp [kinds, h], hk⟩

/-- A type that is written is known: none of the keywords stands for a type that could not be found
out. -/
theorem TypeName.ty_ne_unknown (t : TypeName) : t.ty ≠ .unknown := by
  obtain ⟨word, ty, h⟩ := t
  rintro rfl
  cases word <;> simp [Ty.ofKeyword?] at h

/-- No item begins with `else`, so that one behind a statement always belongs to it. -/
theorem Item.kinds_eq_cons (item : Item) :
    ∃ k rest, item.kinds = k :: rest ∧ k ≠ .keyword .else := by
  cases item with
  | field type name => exact ⟨_, _, rfl, by simp [type.word_ne .else rfl]⟩
  | method type name parameters comma body =>
    exact ⟨_, _, rfl, by simp [type.word_ne .else rfl]⟩
  | statement s =>
    cases s with
    | expression e =>
      obtain ⟨k, rest, h, hk⟩ := e.kinds_eq_cons
      exact ⟨k, rest, h, by rintro rfl; simp [Token.Kind.beginsExpr] at hk⟩
    | leave exit => exact ⟨_, _, rfl, by cases exit <;> decide⟩
    | _ => exact ⟨_, _, rfl, by decide⟩

/-! ### What can follow a tree -/

namespace Expr

section

variable {k : Token.Kind} (hequal : k ≠ .symbol .equal)
include hequal

theorem goesOn_primary (e : Expr .primary) : e.goesOn k = false := by
  cases e with
  | name _ => exact decide_eq_false hequal
  | _ => rfl

variable (hmul : k.operator? MultiplicativeOp.ofSymbol? = none)
include hmul

theorem goesOn_term (e : Expr .term) : e.goesOn k = false := by
  -- no operator of this rung follows, so it comes down to the last operand
  have hop : (k.operator? MultiplicativeOp.ofSymbol?).isSome = false := by rw [hmul]; rfl
  cases e with
  | factor e =>
    show (e.goesOn k || (!e.isAssign && (k.operator? MultiplicativeOp.ofSymbol?).isSome)) = false
    rw [goesOn_primary hequal, hop, Bool.and_false, Bool.or_false]
  | product _ _ right =>
    show (right.goesOn k || (k.operator? MultiplicativeOp.ofSymbol?).isSome) = false
    rw [goesOn_primary hequal, hop, Bool.or_false]

theorem goesOn_signed (e : Expr .signed) : e.goesOn k = false := by
  cases e with
  | unsigned e => exact goesOn_term hequal hmul e
  | signed _ e => exact goesOn_term hequal hmul e

variable (hadd : k.operator? AdditiveOp.ofSymbol? = none)
include hadd

theorem goesOn_sum (e : Expr .sum) : e.goesOn k = false := by
  have hop : (k.operator? AdditiveOp.ofSymbol?).isSome = false := by rw [hadd]; rfl
  cases e with
  | first e =>
    show (e.goesOn k || (!e.isAssign && (k.operator? AdditiveOp.ofSymbol?).isSome)) = false
    rw [goesOn_signed hequal hmul, hop, Bool.and_false, Bool.or_false]
  | sum _ _ right =>
    show (right.goesOn k || (k.operator? AdditiveOp.ofSymbol?).isSome) = false
    rw [goesOn_term hequal hmul, hop, Bool.or_false]

variable (hcmp : k.operator? ComparisonOp.ofSymbol? = none)
include hcmp

theorem goesOn_relation (e : Expr .relation) : e.goesOn k = false := by
  have hop : (k.operator? ComparisonOp.ofSymbol?).isSome = false := by rw [hcmp]; rfl
  cases e with
  | single e =>
    show (e.goesOn k || (!e.isAssign && (k.operator? ComparisonOp.ofSymbol?).isSome)) = false
    rw [goesOn_sum hequal hmul hadd, hop, Bool.and_false, Bool.or_false]
  | comparison _ _ right => exact goesOn_sum hequal hmul hadd right

end

/-- A semicolon ends every expression. -/
@[simp] theorem goesOn_semicolon (e : Expr .relation) : e.goesOn (.symbol .semicolon) = false :=
  goesOn_relation (by decide) rfl rfl rfl e

/-- A closing parenthesis ends every expression. -/
@[simp] theorem goesOn_rightParen (e : Expr .relation) : e.goesOn (.symbol .rightParen) = false :=
  goesOn_relation (by decide) rfl rfl rfl e

/-- A closing brace ends every expression. -/
@[simp] theorem goesOn_rightBrace (e : Expr .relation) : e.goesOn (.symbol .rightBrace) = false :=
  goesOn_relation (by decide) rfl rfl rfl e

/-- The end of the input ends every expression. -/
@[simp] theorem goesOn_endOfInput (e : Expr .relation) : e.goesOn .endOfInput = false :=
  goesOn_relation (by decide) rfl rfl rfl e

/-- After an assignment an expression never goes on, on any rung: its semicolon has been read. -/
theorem goesOn_of_isAssign (k : Token.Kind) : ∀ {r : Rung} {e : Expr r}, e.isAssign = true →
    e.goesOn k = false
  -- the other forms are no assignments, so there is nothing to show for them
  | _, .assign _ _, _ => rfl
  | _, .factor e, h => by simp [goesOn, goesOn_of_isAssign k (e := e) h, show e.isAssign from h]
  | _, .unsigned e, h => goesOn_of_isAssign k (e := e) h
  | _, .first e, h => by simp [goesOn, goesOn_of_isAssign k (e := e) h, show e.isAssign from h]
  | _, .single e, h => by simp [goesOn, goesOn_of_isAssign k (e := e) h, show e.isAssign from h]

end Expr

/-- A token ends every statement if it ends every expression and is not `else`.  By recursion to the
last part of the statement. -/
theorem Stmt.goesOn_of_ends {k : Token.Kind} (hk : k ≠ .keyword .else)
    (he : ∀ e : Expr .relation, e.goesOn k = false) : ∀ s : Stmt, s.goesOn k = false
  | .block _ => rfl
  | .branch _ body => by simp [goesOn, hk, goesOn_of_ends hk he body]
  | .choice _ _ other => goesOn_of_ends hk he other
  | .loop _ body => goesOn_of_ends hk he body
  | .expression e => he e
  | .empty => rfl
  | .print _ => rfl
  | .bug _ => rfl
  | .ret _ => rfl
  | .leave _ => rfl

/-- A closing brace ends every item. -/
@[simp] theorem Item.goesOn_rightBrace (item : Item) :
    item.goesOn (.symbol .rightBrace) = false := by
  cases item with
  | statement s => exact s.goesOn_of_ends (by simp) Expr.goesOn_rightBrace
  | _ => rfl

/-- The end of the input ends every item. -/
@[simp] theorem Item.goesOn_endOfInput (item : Item) : item.goesOn .endOfInput = false := by
  cases item with
  | statement s => exact s.goesOn_of_ends (by simp) Expr.goesOn_endOfInput
  | _ => rfl

/-! ### Fully punctuated trees -/

/-- Whether a statement is a block. -/
def Stmt.isBlock : Stmt → Bool
  | .block _ => true
  | _ => false

/-- Whether a statement list begins with an empty statement. -/
def Items.beginsEmpty : Items → Bool
  | .cons (.statement .empty) _ => true
  | _ => false

/-- Whether an expression is an assignment of a value without assignments, on whatever rung. -/
def Expr.assigns : {r : Rung} → Expr r → Bool
  | _, .assign _ value => value.pure
  | _, .factor e => e.assigns
  | _, .unsigned e => e.assigns
  | _, .first e => e.assigns
  | _, .single e => e.assigns
  | _, _ => false

/-- Whether an item is an expression that is no assignment, and so has no semicolon of its own. -/
def Item.endsOpen : Item → Bool
  | .statement (.expression e) => !e.isAssign
  | _ => false

mutual

/-- Every body is a block, and assignments are statements.  In this form nothing depends on how far
a statement reaches. -/
def Stmt.braced : Stmt → Bool
  | .block items => items.braced
  | .branch condition body => condition.pure && body.isBlock && body.braced
  | .choice condition body other =>
    condition.pure && body.isBlock && body.braced && other.isBlock && other.braced
  | .loop condition body => condition.pure && body.isBlock && body.braced
  | .expression e => e.pure || e.assigns
  | .empty => true
  | .print _ => true
  | .bug body => body.isBlock && body.braced
  | .ret value => value.all Expr.pure
  | .leave _ => true

/-- The same for an item; no comma follows the last parameter, although one may. -/
def Item.braced : Item → Bool
  | .field _ _ => true
  | .method _ _ _ comma body => !comma && body.braced
  | .statement s => s.braced

/-- The same for a statement list; a semicolon follows an expression that is no
assignment. -/
def Items.braced : Items → Bool
  | .nil => true
  | .cons item rest => item.braced && (!item.endsOpen || rest.beginsEmpty) && rest.braced

end

/-- A block never goes on, since it ends in a brace of its own. -/
theorem Stmt.goesOn_of_isBlock {s : Stmt} (h : s.isBlock = true) (k : Token.Kind) :
    s.goesOn k = false := by
  cases s <;> first | rfl | simp [Stmt.isBlock] at h

/-- A fully punctuated item goes on with nothing that follows it in a list.  Only expressions and
statements without `else` could, and an empty statement or a block ends those. -/
theorem Item.goesOn_of_braced {item : Item} {rest : Items} (h : item.braced = true)
    (hopen : (!item.endsOpen || rest.beginsEmpty) = true) :
    item.goesOn (rest.kinds.head?.getD (.symbol .rightBrace)) = false := by
  -- what follows is the brace behind the list, or the first token of another item
  have helse : rest.kinds.head?.getD (.symbol .rightBrace) ≠ .keyword .else := by
    cases rest with
    | nil => decide
    | cons next rest =>
      obtain ⟨k, ks, hk, hne⟩ := next.kinds_eq_cons
      simpa [Items.kinds, hk] using hne
  cases item with
  | field type name => rfl
  | method type name parameters comma body => rfl
  | statement s =>
    cases s with
    -- the statements with a body end in a block
    | branch condition body =>
      simp only [Item.braced, Stmt.braced, Bool.and_eq_true] at h
      simp [Item.goesOn, Stmt.goesOn, helse, Stmt.goesOn_of_isBlock h.1.2]
    | choice condition body other =>
      simp only [Item.braced, Stmt.braced, Bool.and_eq_true] at h
      simp [Item.goesOn, Stmt.goesOn, Stmt.goesOn_of_isBlock h.1.2]
    | loop condition body =>
      simp only [Item.braced, Stmt.braced, Bool.and_eq_true] at h
      simp [Item.goesOn, Stmt.goesOn, Stmt.goesOn_of_isBlock h.1.2]
    | expression e =>
      -- an assignment has read its semicolon, and behind anything else there is an empty statement
      cases hassign : e.isAssign with
      | true => exact Expr.goesOn_of_isAssign _ hassign
      | false =>
        have hempty : rest.beginsEmpty = true := by simpa [Item.endsOpen, hassign] using hopen
        obtain ⟨rest', rfl⟩ : ∃ rest', rest = .cons (.statement .empty) rest' := by
          unfold Items.beginsEmpty at hempty
          split at hempty
          · exact ⟨_, rfl⟩
          · cases hempty
        exact e.goesOn_semicolon
    | _ => rfl

mutual

theorem Stmt.closed_of_braced : ∀ (s : Stmt), s.braced = true → s.closed = true
  | .block items, h => items.closed_of_braced h
  | .branch condition body, h => by
    simp only [Stmt.braced, Bool.and_eq_true] at h
    exact body.closed_of_braced h.2
  -- the first body is a block, so the `else` behind it belongs to this choice
  | .choice condition body other, h => by
    simp only [Stmt.braced, Bool.and_eq_true] at h
    obtain ⟨⟨⟨⟨-, hblock⟩, hbody⟩, -⟩, hother⟩ := h
    simp [Stmt.closed, Stmt.goesOn_of_isBlock hblock, body.closed_of_braced hbody,
      other.closed_of_braced hother]
  | .loop condition body, h => by
    simp only [Stmt.braced, Bool.and_eq_true] at h
    exact body.closed_of_braced h.2
  | .bug body, h => by
    simp only [Stmt.braced, Bool.and_eq_true] at h
    exact body.closed_of_braced h.2
  | .expression _, _ => rfl
  | .empty, _ => rfl
  | .print _, _ => rfl
  | .ret _, _ => rfl
  | .leave _, _ => rfl

theorem Item.closed_of_braced : ∀ (item : Item), item.braced = true → item.closed = true
  | .field _ _, _ => rfl
  | .method _ _ _ _ body, h => by
    simp only [Item.braced, Bool.and_eq_true] at h
    exact body.closed_of_braced h.2
  | .statement s, h => s.closed_of_braced h

/-- **The fully punctuated form is unambiguous**: nothing in it is followed by something
that would have been read with it. -/
theorem Items.closed_of_braced : ∀ (items : Items), items.braced = true → items.closed = true
  | .nil, _ => rfl
  | .cons item rest, h => by
    simp only [Items.braced, Bool.and_eq_true] at h
    -- what holds of the item within the list is all there is to show besides its parts
    obtain ⟨⟨hitem, hopen⟩, hrest⟩ := h
    simp [Items.closed, Item.goesOn_of_braced hitem hopen, item.closed_of_braced hitem,
      rest.closed_of_braced hrest]

end

end OnePass
