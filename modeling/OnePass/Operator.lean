import OnePass.Symbol

/-!
# Operators

The operators, by the level of the grammar they belong to.  Each has a symbol in the
source and a mnemonic in the emitted code.

## Main definitions

* `UnaryOp`, `AdditiveOp`, `MultiplicativeOp`, `ComparisonOp` — the levels.
* `ofSymbol?`, `symbol`, `mnemonic` — for each level, its symbols and mnemonics.
-/

namespace OnePass

/-- The signs that emit an operation.  A plus sign may stand in front of an operand too, but it
emits none. -/
inductive UnaryOp
  | negate
  deriving DecidableEq, Repr

/-- Operators of the additive level, the logical and bitwise disjunctions among them. -/
inductive AdditiveOp
  | add | sub | or | orElse | xor
  deriving DecidableEq, Repr

/-- Operators of the multiplicative level, the logical and bitwise conjunctions among them. -/
inductive MultiplicativeOp
  | mul | div | rem | and | andAlso
  deriving DecidableEq, Repr

/-- Operators of the relational level, of which an expression has at most one. -/
inductive ComparisonOp
  | less | lessEqual | equal | notEqual | greaterEqual | greater
  deriving DecidableEq, Repr

namespace UnaryOp

/-- The symbol of an operator. -/
def symbol : UnaryOp → Symbol
  | .negate => .minus

/-- The operator with a given symbol.  A minus sign in front of an operand is not the one between
two. -/
def ofSymbol? : Symbol → Option UnaryOp
  | .minus => some .negate
  | _ => none

/-- The name of an operator in emitted code. -/
def mnemonic : UnaryOp → String
  | .negate => "neg"

end UnaryOp

namespace AdditiveOp

/-- The symbol of an operator. -/
def symbol : AdditiveOp → Symbol
  | .add => .plus
  | .sub => .minus
  | .or => .bar
  | .orElse => .barBar
  | .xor => .caret

/-- The operator with a given symbol, or nothing if the symbol belongs to another level. -/
def ofSymbol? : Symbol → Option AdditiveOp
  | .plus => some .add
  | .minus => some .sub
  | .bar => some .or
  | .barBar => some .orElse
  | .caret => some .xor
  | _ => none

/-- The name of an operator in emitted code.  The suffix sets the logical operator apart from the
bitwise one. -/
def mnemonic : AdditiveOp → String
  | .add => "add"
  | .sub => "sub"
  | .or => "or"
  | .orElse => "or.l"
  | .xor => "xor"

end AdditiveOp

namespace MultiplicativeOp

/-- The symbol of an operator. -/
def symbol : MultiplicativeOp → Symbol
  | .mul => .star
  | .div => .slash
  | .rem => .percent
  | .and => .amp
  | .andAlso => .ampAmp

/-- The operator with a given symbol, or nothing if the symbol belongs to another level. -/
def ofSymbol? : Symbol → Option MultiplicativeOp
  | .star => some .mul
  | .slash => some .div
  | .percent => some .rem
  | .amp => some .and
  | .ampAmp => some .andAlso
  | _ => none

/-- The name of an operator in emitted code.  The suffix sets the logical operator apart from the
bitwise one. -/
def mnemonic : MultiplicativeOp → String
  | .mul => "mul"
  | .div => "div"
  | .rem => "rem"
  | .and => "and"
  | .andAlso => "and.l"

end MultiplicativeOp

namespace ComparisonOp

/-- The symbol of an operator. -/
def symbol : ComparisonOp → Symbol
  | .less => .less
  | .lessEqual => .lessEqual
  | .equal => .equalEqual
  | .notEqual => .bangEqual
  | .greaterEqual => .greaterEqual
  | .greater => .greater

/-- The operator with a given symbol, or nothing if the symbol belongs to another level. -/
def ofSymbol? : Symbol → Option ComparisonOp
  | .less => some .less
  | .lessEqual => some .lessEqual
  | .equalEqual => some .equal
  | .bangEqual => some .notEqual
  | .greaterEqual => some .greaterEqual
  | .greater => some .greater
  | _ => none

/-- The name of an operator in emitted code. -/
def mnemonic : ComparisonOp → String
  | .less => "clt"
  | .lessEqual => "cle"
  | .equal => "ceq"
  | .notEqual => "cne"
  | .greaterEqual => "cge"
  | .greater => "cgt"

end ComparisonOp

end OnePass
