import Neighbors.Storage
import Neighbors.Matches

/-!
# Exhaustive scans

The scans that score queries against stored rows: every row for the best `k` (`nearest`,
`nearestShifted`) or for those within a radius (`within`), or named rows only (`rescore`). Queries
and rows of dimension `d` lie end to end.
-/

namespace Neighbors.Scan

def rows (d : Nat) (x : Floats) : List Floats := (List.range (x.size / d)).map (rowOf d x)

/-- All rows of `base` as candidates for one query, in label order. -/
def scored (d : Nat) (base : Floats) (score : Floats → Nat → Binary32) : List Candidate :=
  (List.range (base.size / d)).map fun j => ⟨score (rowOf d base j) j, j⟩

/-- The best `k` rows for each query, in `size` slots. -/
def best (metric : Metric) (queries base : Floats) (d k size : Nat)
    (score : Floats → Floats → Nat → Binary32) : Slots :=
  .fillRows size k (rows d queries) fun room q =>
    (TopK.ofCandidates metric room (scored d base (score q))).finish

/-- The best `k` rows by the metric's distance. -/
def nearest (metric : Metric) (queries base : Floats) (d k size : Nat) : Slots :=
  best metric queries base d k size fun q row _ => metric.distance q row

/-- The best `k` rows where row `j` scores its squared distance less `shift[j]`. -/
def nearestShifted (queries base shift : Floats) (d k size : Nat) : Slots :=
  best .l2 queries base d k size fun q row j => squaredDistance q row - shift.getD j .zero

/-- The rows within `radius` of each query. -/
def within (metric : Metric) (queries base : Floats) (d : Nat) (radius : Binary32) : Matches :=
  .ofPartials ((rows d queries).map fun q =>
    (scored d base fun row _ => metric.distance q row).filter
      fun c => metric.withinRadius c.distance radius)

/-- The distances from each query to the `k` rows named in its part of `labels`, written over
`distances`. An empty slot gets the metric's worst distance. -/
def rescore (metric : Metric) (queries base : Floats) (d k : Nat) (labels : Array Label)
    (distances : Array Binary32) : Array Binary32 :=
  if k = 0 then distances
  else distances.mapIdx fun slot old =>
    match labels[slot]? with
    | none => old
    | some label =>
      if queries.size / d ≤ slot / k then old
      else if label = noLabel then metric.worst
      else metric.distance (rowOf d queries (slot / k)) (rowOf d base label.toNat)

end Neighbors.Scan
