/-
# TacticEngine.Text.CharRange -- sets of characters given by ranges of code points.

A character class of the Unicode standard is written here as a list of closed intervals of code
points.  Membership is decided by looking at every interval, so a table needs no order.
-/

namespace TacticEngine.Text

/-- Closed intervals of code points; the set they denote is their union. -/
abbrev CharRanges := List (Nat × Nat)

/-- The code point of `c` lies in one of the intervals. -/
def CharRanges.mem (ranges : CharRanges) (c : Char) : Bool :=
  ranges.any fun (low, high) => low ≤ c.toNat && c.toNat ≤ high

end TacticEngine.Text
