/-!
Sets of characters given by ascending ranges of code points.
-/

namespace Surmise.Text

def inRanges (ranges : Array (Nat × Nat)) (n : Nat) : Bool :=
  ranges.any fun r => r.1 ≤ n && n ≤ r.2

end Surmise.Text
