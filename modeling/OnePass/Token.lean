import OnePass.Keyword
import OnePass.Position
import OnePass.Symbol

/-!
# Tokens

A token is what the productions match: a name, a keyword, a symbol, a literal, or
the end of the input, together with the position of its first character.

## Main definitions

* `Token.Kind` — what a token is.
* `Token.Kind.describe` — how messages name it.
* `Token` — a kind with its position.
-/

namespace OnePass

/-- What a token is, apart from where it stands. -/
inductive Token.Kind
  /-- A name that is no keyword and no boolean literal. -/
  | identifier (name : String)
  /-- A reserved word. -/
  | keyword (word : Keyword)
  /-- Punctuation or an operator. -/
  | symbol (mark : Symbol)
  /-- A decimal literal. -/
  | number (value : Nat)
  /-- `true` or `false`. -/
  | boolean (value : Bool)
  /-- The end of the source. -/
  | endOfInput
  deriving DecidableEq, Repr

/-- A token of the source.  Messages about it point at its first character. -/
structure Token where
  /-- What the token is. -/
  kind : Token.Kind
  /-- Where its first character stands. -/
  position : Position
  deriving DecidableEq, Repr

namespace Token

/-- How messages name a kind of token: by its class, and by its own text where the class has more
than one member. -/
def Kind.describe : Kind → String
  | .identifier name => s!"identifier '{name}'"
  | .keyword word => s!"keyword '{word.spelling}'"
  | .symbol mark => s!"'{mark.spelling}'"
  | .number value => s!"number {value}"
  | .boolean value => if value then "boolean true" else "boolean false"
  | .endOfInput => "end of input"

/-- The largest number a literal may denote, which is the largest signed one of 32 bits. -/
def maxNumber : Nat := 2147483647

end Token

end OnePass
