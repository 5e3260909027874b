/-!
# Ranges of characters

Classes of characters are given by the ranges of their code points.
-/

namespace ClosureLang.Text

/-- Whether a character lies in one of some ranges, whose ends belong to them. -/
def inRanges (ranges : List (Nat × Nat)) (c : Char) : Bool :=
  ranges.any fun (low, high) => low ≤ c.toNat && c.toNat ≤ high

end ClosureLang.Text
