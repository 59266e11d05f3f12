/-!
# Ranges of code points

Character properties are tables of closed ranges of code points, in increasing order.
-/

namespace Wattle.Text

/-- The code points from `first` to `last`, both included. -/
structure CodeRange where
  first : Nat
  last : Nat
deriving DecidableEq

namespace CodeRange

/-- Whether the code point of `c` lies in the range. -/
def holds (r : CodeRange) (c : Char) : Bool :=
  r.first ≤ c.toNat && c.toNat ≤ r.last

end CodeRange

def inTable (table : List CodeRange) (c : Char) : Bool :=
  table.any (·.holds c)

end Wattle.Text
