import Mathlib

-- A closed interval of unsigned values.
structure ClosedInterval where
  first : Nat
  last  : Nat

-- What is left of an interval without the values of another one.
def ClosedInterval.subtract (x i : ClosedInterval) : List ClosedInterval :=
  if x.last < i.first ∨ i.last < x.first then
    [x]
  else
    (if x.first < i.first then [⟨x.first, i.first - 1⟩] else []) ++
      if i.last < x.last then [⟨i.last + 1, x.last⟩] else []

-- A set of values up to `max`, as the fewest disjoint intervals in their order.
structure RangeSet (max : Nat) where
  intervals : List ClosedInterval
  nonempty  : ∀ i ∈ intervals, i.first ≤ i.last ∧ i.last ≤ max
  disjoint  : intervals.Pairwise fun i j => i.last + 1 < j.first

-- The subtraction from `t` is unsigned.
def RangeSet.prevMissing {max : Nat} (rs : RangeSet max) (t minVal : Nat) : Option Nat :=
  if rs.intervals = [] ∨ t = minVal then
    none
  else
    let last := if t = 0 then max else t - 1
    let tgt := if minVal ≤ last then [⟨minVal, last⟩] else []
    let tgt := rs.intervals.foldl (fun tgt i => tgt.flatMap (·.subtract i)) tgt
    tgt.getLast?.map ClosedInterval.last
