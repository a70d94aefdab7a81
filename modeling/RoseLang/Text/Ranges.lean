/-!
# Sets of code points as ranges

A set of characters is given by its closed ranges of code points in increasing order, so that the
search for a code point may stop at the first range that begins after it.
-/

namespace RoseLang.Text

/-- Whether `n` lies in one of the ranges, which stand in increasing order. -/
def inRanges : List (Nat × Nat) → Nat → Bool
  | [], _ => false
  | (lo, hi) :: more, n => if n < lo then false else if n ≤ hi then true else inRanges more n

end RoseLang.Text
