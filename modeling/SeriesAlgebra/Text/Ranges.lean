/-!
# Properties of characters as ranges

A property of characters is given by the closed intervals of code points that
have it.
-/

namespace SeriesAlgebra

namespace Text

/-- Whether a code point lies in one of several closed intervals. -/
def inRanges (ranges : List (Nat × Nat)) (n : Nat) : Bool :=
  ranges.any fun (low, high) => low ≤ n && n ≤ high

end Text

end SeriesAlgebra
