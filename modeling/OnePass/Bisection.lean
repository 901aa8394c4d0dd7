/-!
Binary search.
-/
namespace OnePass

/-- The first index from `lo` on for which the test fails, or `hi`. The indices for which it holds
have to come first. -/
def partitionPoint (p : Nat → Bool) (lo hi : Nat) : Nat :=
  if lo < hi then
    let mid := (lo + hi) / 2
    if p mid then partitionPoint p (mid + 1) hi else partitionPoint p lo mid
  else lo
termination_by hi - lo

end OnePass
