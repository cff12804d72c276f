/-!
# Sets of code points

A property of characters is given by the closed ranges of code points that have it, in ascending
order.
-/

namespace FrontEnd.Unicode

/-- The first and last code point of every range of a set. -/
abbrev Ranges := List (Nat × Nat)

/-- Whether the character is in the set. -/
def Ranges.has (ranges : Ranges) (c : Char) : Bool :=
  ranges.any fun range => range.1 ≤ c.toNat && c.toNat ≤ range.2

end FrontEnd.Unicode
