/-!
# Sets of code points

A property of characters is kept as a table of closed ranges of code points.  The ranges
stand in ascending order, so that a search can end as soon as it has come too far.

## Main definitions

* `Text.CodePoints` — a table of ranges.
* `Text.CodePoints.contains` — whether a code point is in one of them.
-/

namespace OnePass.Text

/-- A table of closed ranges of code points, in ascending order. -/
abbrev CodePoints := List (Nat × Nat)

/-- Whether a code point is in one of the ranges.  The search ends at the first range that
begins beyond it. -/
def CodePoints.contains : CodePoints → Nat → Bool
  | [], _ => false
  | (first, last) :: rest, n => if n < first then false else n ≤ last || contains rest n

end OnePass.Text
